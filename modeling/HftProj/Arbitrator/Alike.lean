import HftProj.Arbitrator.Offers

/-!
# States that behave alike

Two states are alike when they differ only in telemetry, in the session template, in
bytes of the arena that no presence byte covers, in the time of the last recovery
intent while none is pending, and in the numbering of generations. Every call keeps
alike states alike and answers with the same outputs, up to the generation numbers.
Every reachable state is alike to itself, whatever frames it has seen.
-/

namespace HftProj.Arbitrator

open HftProj.Lib HftProj.Protocol HftProj.Protocol.Moldudp64 HftProj.Protocol.Packet

namespace Window

/-- Two sound windows with the same count, the same high mark and the same payloads in
their slots. -/
structure Alike (win win' : Window) : Prop where
  sound : win.Sound
  sound' : win'.Sound
  stagedCount : win.stagedCount = win'.stagedCount
  maxStaged : win.maxStaged = win'.maxStaged
  cell : ∀ i < WINDOW_SLOTS, win.cell i = win'.cell i

/-- A presence byte is read off the payload of its slot. -/
theorem lens_of_cell (win : Window) (i : ℕ) :
    win.lens i = ((win.cell i).map fun d => d.length + 1).getD 0 := by
  unfold cell
  by_cases h0 : win.lens i = 0
  · simp [h0]
  · rw [if_neg h0, Option.map_some, arenaSlice_length, Option.getD_some]
    omega

section Alike

variable {win win' : Window}

theorem Alike.lens (h : win.Alike win') {i : ℕ} (hi : i < WINDOW_SLOTS) :
    win.lens i = win'.lens i := by
  rw [lens_of_cell, lens_of_cell, h.cell i hi]

theorem update_cell (h : win.Alike win') (slot : ℕ) (x : Option (List UInt8)) :
    ∀ i < WINDOW_SLOTS, Function.update win.cell slot x i = Function.update win'.cell slot x i := by
  intro i hi
  by_cases his : i = slot
  · rw [his, Function.update_self, Function.update_self]
  · rw [Function.update_of_ne his, Function.update_of_ne his, h.cell i hi]

theorem Alike.put (h : win.Alike win') {slot : ℕ} (hslot : slot < WINDOW_SLOTS)
    {data : List UInt8} (hdata : data.length ≤ 64) :
    (win.put slot data).Alike (win'.put slot data) where
  sound := h.sound.put hslot hdata
  sound' := h.sound'.put hslot hdata
  stagedCount := by
    simp only [Window.put, h.lens hslot, h.stagedCount]
  maxStaged := h.maxStaged
  cell := by
    rw [put_cell h.sound hdata, put_cell h.sound' hdata]
    exact update_cell h slot (some data)

theorem Alike.stageMsg (h : win.Alike win') (w seq : ℕ) (data : List UInt8) :
    (win.stageMsg w seq data).1.Alike (win'.stageMsg w seq data).1 ∧
      (win.stageMsg w seq data).2 = (win'.stageMsg w seq data).2 := by
  rw [stageMsg_eq, stageMsg_eq]
  split
  · refine ⟨h.put (slot_lt seq) ?_, rfl⟩
    rw [List.length_take]
    exact Nat.min_le_left _ _
  · exact ⟨h, rfl⟩

theorem Alike.unmark (h : win.Alike win') {slot : ℕ} (hslot : slot < WINDOW_SLOTS)
    (hne : win'.lens slot ≠ 0) :
    ({ win.setLen slot 0 with stagedCount := win.stagedCount - 1 } : Window).Alike
      { win'.setLen slot 0 with stagedCount := win'.stagedCount - 1 } where
  sound := h.sound.unmark hslot (h.lens hslot ▸ hne)
  sound' := h.sound'.unmark hslot hne
  stagedCount := congrArg (· - 1) h.stagedCount
  maxStaged := h.maxStaged
  cell := by
    rw [unmark_cell, unmark_cell]
    exact update_cell h slot none

theorem Alike.resetMax (h : win.Alike win') :
    ({ win with maxStaged := 0 } : Window).Alike { win' with maxStaged := 0 } :=
  ⟨⟨h.sound.count, h.sound.lens_le⟩, ⟨h.sound'.count, h.sound'.lens_le⟩, h.stagedCount, rfl,
    h.cell⟩

theorem Alike.clearCells (h : win.Alike win') {cells : List ℕ}
    (hcells : ∀ i ∈ cells, i < WINDOW_SLOTS) :
    (clearCells cells win).1.Alike (Window.clearCells cells win').1 ∧
      (Window.clearCells cells win).2 = (Window.clearCells cells win').2 := by
  induction cells generalizing win win' with
  | nil => exact ⟨h, rfl⟩
  | cons cell cells ih =>
      have hcell := hcells cell List.mem_cons_self
      have hrest : ∀ i ∈ cells, i < WINDOW_SLOTS := fun i hi =>
        hcells i (List.mem_cons_of_mem _ hi)
      simp only [Window.clearCells, h.lens hcell, h.stagedCount]
      by_cases hne : win'.lens cell ≠ 0
      · have hmark := h.unmark hcell hne
        rw [h.stagedCount] at hmark
        rw [if_pos hne, if_pos hne]
        split
        · exact ⟨hmark.resetMax, rfl⟩
        · exact ih hmark hrest
      · rw [if_neg hne, if_neg hne]
        exact ih h hrest

theorem Alike.clearSlots (h : win.Alike win') (oldW newW : ℕ) :
    (win.clearSlots oldW newW).Alike (win'.clearSlots oldW newW) := by
  unfold Window.clearSlots
  rw [h.stagedCount]
  by_cases h0 : win'.stagedCount = 0
  · rw [if_pos h0, if_pos h0]
    exact h
  rw [if_neg h0, if_neg h0]
  dsimp only
  generalize hlimit : min newW (saturatingAdd oldW WINDOW_SLOTS) = limit
  split
  · exact h
  have hn : limit - oldW ≤ WINDOW_SLOTS := by
    unfold saturatingAdd at hlimit
    omega
  rw [and_mask]
  have hslot := slot_lt oldW
  have hfirst : ∀ i ∈ List.range' (oldW % WINDOW_SLOTS)
      (min (WINDOW_SLOTS - oldW % WINDOW_SLOTS) (limit - oldW)), i < WINDOW_SLOTS := by
    intro i hi
    rw [List.mem_range'_1] at hi
    omega
  have hsecond : ∀ i ∈ List.range (limit - oldW -
      min (WINDOW_SLOTS - oldW % WINDOW_SLOTS) (limit - oldW)), i < WINDOW_SLOTS := by
    intro i hi
    rw [List.mem_range] at hi
    omega
  obtain ⟨h₁, h₂⟩ := h.clearCells hfirst
  rw [h₂]
  split
  · exact h₁
  · exact (h₁.clearCells hsecond).1

/-- Draining reads the same payloads and stops at the same number. -/
theorem Alike.drainLoop (h : win.Alike win') (proof proof' : LiveFeedProof) {n : ℕ}
    (hn : win'.stagedCount = n) (w : ℕ) :
    (drainLoop proof n win w).1.Alike (drainLoop proof' n win' w).1 ∧
      (Window.drainLoop proof n win w).2.1 = (Window.drainLoop proof' n win' w).2.1 ∧
      ∃ items, (Window.drainLoop proof n win w).2.2 = deliver proof items ∧
        (Window.drainLoop proof' n win' w).2.2 = deliver proof' items := by
  induction n generalizing win win' w with
  | zero => exact ⟨h, rfl, [], rfl, rfl⟩
  | succ n ih =>
      have hslot := slot_lt w
      simp only [Window.drainLoop, and_mask, h.lens hslot, Nat.shiftLeft_eq,
        show (2 : ℕ) ^ 6 = 64 from rfl]
      by_cases h0 : win'.lens (w % WINDOW_SLOTS) = 0
      · rw [if_pos h0, if_pos h0]
        exact ⟨h, rfl, [], rfl, rfl⟩
      · rw [if_neg h0, if_neg h0]
        have hmsg : win.arenaSlice (w % WINDOW_SLOTS * 64) (win'.lens (w % WINDOW_SLOTS) - 1) =
            win'.arenaSlice (w % WINDOW_SLOTS * 64) (win'.lens (w % WINDOW_SLOTS) - 1) := by
          have hc := h.cell _ hslot
          rw [Window.cell, Window.cell, h.lens hslot, if_neg h0, if_neg h0] at hc
          exact Option.some.inj hc
        have hmark := h.unmark hslot h0
        rw [h.stagedCount, hn, Nat.add_sub_cancel] at hmark
        obtain ⟨h₁, h₂, items, h₃, h₄⟩ := ih hmark rfl (wrappingAdd w 1)
        rw [hmsg]
        generalize win'.arenaSlice (w % WINDOW_SLOTS * 64)
          (win'.lens (w % WINDOW_SLOTS) - 1) = msg
        exact ⟨h₁, h₂, (w, msg) :: items, congrArg (_ :: ·) h₃, congrArg (_ :: ·) h₄⟩

theorem Alike.drain (h : win.Alike win') (w gen gen' : ℕ) :
    (win.drain w gen).1.Alike (win'.drain w gen').1 ∧
      (win.drain w gen).2.1 = (win'.drain w gen').2.1 ∧
      ∃ items, (win.drain w gen).2.2 = deliver ⟨gen⟩ items ∧
        (win'.drain w gen').2.2 = deliver ⟨gen'⟩ items := by
  unfold Window.drain
  rw [h.stagedCount]
  by_cases h0 : win'.stagedCount = 0
  · rw [if_pos h0, if_pos h0]
    exact ⟨h, rfl, [], rfl, rfl⟩
  · obtain ⟨h₁, h₂, h₃⟩ := h.drainLoop ⟨gen⟩ ⟨gen'⟩ rfl w
    rw [if_neg h0, if_neg h0]
    refine ⟨?_, h₂, h₃⟩
    dsimp only
    by_cases hempty : (Window.drainLoop ⟨gen'⟩ win'.stagedCount win' w).1.stagedCount = 0
    · rw [if_pos (h₁.stagedCount.trans hempty), if_pos hempty]
      exact h₁.resetMax
    · rw [if_neg fun h => hempty (h₁.stagedCount.symm.trans h), if_neg hempty]
      exact h₁

/-- Draining leaves the watermark a 64-bit number. -/
theorem drain_lt (win : Window) {w : ℕ} (hw : w < 2 ^ 64) (gen : ℕ) :
    (win.drain w gen).2.1 < 2 ^ 64 := by
  have hloop : ∀ n (win : Window) w, w < 2 ^ 64 →
      (Window.drainLoop ⟨gen⟩ n win w).2.1 < 2 ^ 64 := by
    intro n
    induction n with
    | zero => exact fun _ _ hw => hw
    | succ n ih =>
        intro win w hw
        unfold Window.drainLoop
        dsimp only
        split
        · exact hw
        · exact ih _ _ (wrappingAdd_lt w 1)
  unfold Window.drain
  split
  · exact hw
  · exact hloop _ win w hw

theorem Alike.flush (h : win.Alike win') :
    ({ win with lens := fun _ => 0, stagedCount := 0 } : Window).Alike
      { win' with lens := fun _ => 0, stagedCount := 0 } where
  sound := ⟨by simp [occupied], fun _ => Nat.zero_le _⟩
  sound' := ⟨by simp [occupied], fun _ => Nat.zero_le _⟩
  stagedCount := rfl
  maxStaged := h.maxStaged
  cell := fun _ _ => rfl

theorem new_alike : new.Alike new := ⟨new_sound, new_sound, rfl, rfl, fun _ _ => rfl⟩

end Alike

end Window

/-- Renumber the generations that a call carries. -/
def SinkCall.mapGen (f : ℕ → ℕ) : SinkCall → SinkCall
  | .onMsg proof seq msg => .onMsg ⟨f proof.gen⟩ seq msg
  | .onEvent (.gapOpened fromSeq ahead gen) => .onEvent (.gapOpened fromSeq ahead (f gen))
  | .onEvent (.reAnchored gen at_) => .onEvent (.reAnchored (f gen) at_)
  | .onEvent (.sessionBoundary prev next gen) => .onEvent (.sessionBoundary prev next (f gen))
  | .onEvent ev => .onEvent ev
  | .onSpan proof firstSeq count body blocks => .onSpan ⟨f proof.gen⟩ firstSeq count body blocks

def Output.mapGen (f : ℕ → ℕ) : Output → Output
  | .sink call => .sink (call.mapGen f)
  | .intent answer => .intent answer

theorem deliver_mapGen (f : ℕ → ℕ) (gen : ℕ) (items : List (ℕ × List UInt8)) :
    (deliver ⟨gen⟩ items).map (SinkCall.mapGen f) = deliver ⟨f gen⟩ items := by
  rw [deliver, deliver, List.map_map]
  rfl

theorem SinkCall.mapGen_id : SinkCall.mapGen id = id := by
  funext call
  cases call with
  | onMsg proof seq msg => rfl
  | onEvent ev => cases ev <;> rfl
  | onSpan proof firstSeq count body blocks => rfl

theorem mapGen_id (outs : List Output) : outs.map (Output.mapGen id) = outs := by
  have hout : Output.mapGen id = id := by
    funext o
    cases o with
    | sink call => exact congrArg Output.sink (congrFun SinkCall.mapGen_id call)
    | intent answer => rfl
  rw [hout, List.map_id]

namespace Sequencer

/-- The first state behaves like the second one with its generations renumbered. Under
`tel` the telemetry is the same as well. -/
structure Alike (tel : Prop) (f : ℕ → ℕ) (u v : Sequencer) : Prop where
  w : u.w = v.w
  gen : u.gen = f v.gen
  session : u.session = v.session
  state : u.state = v.state
  gapActive : u.gapActive = v.gapActive
  evidenceHwm : u.evidenceHwm = v.evidenceHwm
  progressVt : u.progressVt = v.progressVt
  hbSeq : u.hbSeq = v.hbSeq
  hbVt : u.hbVt = v.hbVt
  pendingTo : u.pendingTo = v.pendingTo
  issued : tel ∨ v.pendingTo ≠ none → u.lastIntentVt = v.lastIntentVt
  counters : tel → u.counters = v.counters
  template : tel → u.sessionLo = v.sessionLo ∧ u.sessionHi = v.sessionHi ∧
    u.sessionLive = v.sessionLive
  mutation : u.mutation = .none
  mutation' : v.mutation = .none
  wBound : v.w < 2 ^ 64
  window : u.window.Alike v.window

section Alike

variable {tel : Prop} {f : ℕ → ℕ} {u v : Sequencer}

/-- Two states alike share every field but those that make no difference. -/
@[elab_as_elim]
theorem Alike.share {motive : Sequencer → Sequencer → Prop} (h : Alike tel f u v)
    (mk : ∀ (v : Sequencer) (lo hi : ℕ) (live : Bool) (issued : ℕ) (c : Counters) (win : Window),
      Alike tel f { v with
          gen := f v.gen, sessionLo := lo, sessionHi := hi, sessionLive := live,
          lastIntentVt := issued, counters := c, window := win } v →
        motive { v with
          gen := f v.gen, sessionLo := lo, sessionHi := hi, sessionLive := live,
          lastIntentVt := issued, counters := c, window := win } v) : motive u v := by
  have heq : u = { v with
      gen := f v.gen, sessionLo := u.sessionLo, sessionHi := u.sessionHi,
      sessionLive := u.sessionLive, lastIntentVt := u.lastIntentVt, counters := u.counters,
      window := u.window } := by
    have hmutation := h.mutation
    cases u
    simp [← h.w, ← h.gen, ← h.session, ← h.state, ← h.gapActive, ← h.evidenceHwm,
      ← h.progressVt, ← h.hbSeq, ← h.hbVt, ← h.pendingTo, h.mutation']
    exact hmutation
  have hmk := mk v u.sessionLo u.sessionHi u.sessionLive u.lastIntentVt u.counters u.window
  rw [← heq] at hmk
  exact hmk h

theorem new_alike : Alike True id new new where
  w := rfl
  gen := rfl
  session := rfl
  state := rfl
  gapActive := rfl
  evidenceHwm := rfl
  progressVt := rfl
  hbSeq := rfl
  hbVt := rfl
  pendingTo := rfl
  issued := fun _ => rfl
  counters := fun _ => rfl
  template := fun _ => ⟨rfl, rfl, rfl⟩
  mutation := rfl
  mutation' := rfl
  wBound := by decide
  window := Window.new_alike

/-- Two steps that end in states alike and make the same calls. -/
structure SameStep (tel : Prop) (f : ℕ → ℕ) (r r' : Emitting) : Prop where
  alike : Alike tel f r.1 r'.1
  calls : r.2 = r'.2.map (SinkCall.mapGen f)

theorem SameStep.andThen {r r' : Emitting} {g g' : Sequencer → Emitting}
    (h : SameStep tel f r r') (hg : Alike tel f r.1 r'.1 → SameStep tel f (g r.1) (g' r'.1)) :
    SameStep tel f (r.andThen g) (r'.andThen g') := by
  obtain ⟨h₁, h₂⟩ := hg h.alike
  refine ⟨h₁, ?_⟩
  rw [Traced.andThen_snd, Traced.andThen_snd, List.map_append, h.calls, h₂]

theorem Alike.silent (h : Alike tel f u v) : SameStep tel f (u, []) (v, []) := ⟨h, rfl⟩

theorem Alike.emitting (h : Alike tel f u v) {calls calls' : List SinkCall}
    (hcalls : calls = calls'.map (SinkCall.mapGen f)) : SameStep tel f (u, calls) (v, calls') :=
  ⟨h, hcalls⟩

theorem Alike.count (h : Alike tel f u v) (c : Counters → Counters) :
    Alike tel f (u.count c) (v.count c) :=
  { h with counters := fun ht => congrArg c (h.counters ht) }

/-- Another window that is alike. -/
theorem Alike.restage (h : Alike tel f u v) {win win' : Window} {c c' : Counters}
    (hwin : win.Alike win') (hc : tel → c = c') :
    Alike tel f { u with window := win, counters := c } { v with window := win', counters := c' } :=
  { h with
    counters := hc
    window := hwin }

/-- A heartbeat noted in both. -/
theorem Alike.heard (h : Alike tel f u v) (seq nowNs : ℕ) :
    Alike tel f { u with hbSeq := seq, hbVt := nowNs } { v with hbSeq := seq, hbVt := nowNs } :=
  { h with
    hbSeq := rfl
    hbVt := rfl }

variable (hf : ∀ g, f (wrappingAdd g 1) = wrappingAdd (f g) 1)

include hf in
theorem Alike.gapEvidence (h : Alike tel f u v) (x : ℕ) :
    SameStep tel f (u.gapEvidence x) (v.gapEvidence x) := by
  refine h.share ?_
  intro v lo hi live issued c win h
  have hopens := h.count fun c => { c with gapOpens := c.gapOpens + 1 }
  unfold Sequencer.gapEvidence
  dsimp only
  split_ifs
  · exact ⟨{ hopens with
      gen := (hf v.gen).symm
      state := rfl
      gapActive := rfl
      evidenceHwm := rfl }, by simp [SinkCall.mapGen, hf]⟩
  · exact Alike.silent { h with evidenceHwm := rfl }
  · exact h.silent

theorem Alike.checkGapClose (h : Alike tel f u v) {gen gen' : ℕ} (hgen : gen = f gen') :
    SameStep tel f (u.checkGapClose gen) (v.checkGapClose gen') := by
  refine h.share ?_
  intro v lo hi live issued c win h
  have hreanchors := h.count fun c => { c with reanchors := c.reanchors + 1 }
  unfold Sequencer.checkGapClose
  dsimp only
  split_ifs
  · exact ⟨{ hreanchors with
      state := rfl
      gapActive := rfl
      evidenceHwm := rfl }, by simp [SinkCall.mapGen, hgen]⟩
  · exact h.silent

theorem Alike.retirePending (h : Alike tel f u v) : Alike tel f u.retirePending v.retirePending := by
  refine h.share ?_
  intro v lo hi live issued c win h
  unfold Sequencer.retirePending
  cases hp : v.pendingTo with
  | none =>
      simp only [hp] at h ⊢
      exact h
  | some p =>
      simp only [hp] at h ⊢
      split_ifs
      · exact { h with
          pendingTo := rfl
          issued := fun ht => h.issued (ht.imp_right fun hne => absurd rfl hne) }
      · exact h

include hf in
theorem Alike.handleHeartbeat (h : Alike tel f u v) (seq nowNs : ℕ) :
    SameStep tel f (u.handleHeartbeat seq nowNs) (v.handleHeartbeat seq nowNs) := by
  refine h.share ?_
  intro v lo hi live issued c win h
  have hcount := h.count fun c => { c with heartbeats := c.heartbeats + 1 }
  have hheard := hcount.heard seq nowNs
  unfold Sequencer.handleHeartbeat
  dsimp only [Sequencer.count]
  split_ifs
  · exact hcount.silent
  · exact hheard.silent
  · exact hcount.silent
  · exact hheard.gapEvidence hf seq
  · exact hcount.silent

theorem Alike.handleEos (h : Alike tel f u v) (hdr : Header) :
    SameStep tel f (u.handleEos hdr) (v.handleEos hdr) := by
  refine h.share ?_
  intro v lo hi live issued c win h
  have hseen := h.count fun c => { c with eosSeen := c.eosSeen + 1 }
  have hdup := h.count fun c => { c with eosDup := c.eosDup + 1 }
  unfold Sequencer.handleEos
  dsimp only [Sequencer.count]
  split_ifs
  · exact h.silent
  · exact hdup.silent
  · exact ⟨{ hseen with state := rfl }, rfl⟩
  · exact ⟨{ hdup with state := rfl }, rfl⟩
  · exact hdup.silent
  · exact Alike.silent { hseen with state := rfl }
  · exact ⟨{ hseen with state := rfl }, rfl⟩

theorem Alike.sealDead (h : Alike tel f u v) (reason : DeadReason) :
    SameStep tel f (u.sealDead reason) (v.sealDead reason) := by
  refine h.share ?_
  intro v lo hi live issued c win h
  unfold Sequencer.sealDead
  dsimp only
  split_ifs
  · exact ⟨{ h with state := rfl }, rfl⟩
  · exact h.silent

theorem Alike.intentTarget (h : Alike tel f u v) (nowNs : ℕ) :
    u.intentTarget nowNs = v.intentTarget nowNs := by
  unfold Sequencer.intentTarget
  rw [h.window.maxStaged, h.window.stagedCount, h.w, h.progressVt, h.hbSeq, h.hbVt]

theorem Alike.issueIntent (h : Alike tel f u v) (nowNs toExcl : ℕ) :
    Alike tel f (u.issueIntent nowNs toExcl).1 (v.issueIntent nowNs toExcl).1 ∧
      (u.issueIntent nowNs toExcl).2 = (v.issueIntent nowNs toExcl).2 := by
  have hissues := h.count fun c => { c with intentsIssued := c.intentsIssued + 1 }
  unfold Sequencer.issueIntent
  exact ⟨{ hissues with issued := fun _ => rfl }, by rw [h.w]⟩

/-- A new target is noted and issued in both. -/
theorem Alike.raiseIntent (h : Alike tel f u v) (nowNs t : ℕ) :
    Alike tel f (({ u with pendingTo := some t } : Sequencer).issueIntent nowNs t).1
        (({ v with pendingTo := some t } : Sequencer).issueIntent nowNs t).1 ∧
      (({ u with pendingTo := some t } : Sequencer).issueIntent nowNs t).2 =
        (({ v with pendingTo := some t } : Sequencer).issueIntent nowNs t).2 := by
  have hissues := h.count fun c => { c with intentsIssued := c.intentsIssued + 1 }
  unfold Sequencer.issueIntent
  exact ⟨{ hissues with
    pendingTo := rfl
    issued := fun _ => rfl }, by rw [h.w]⟩

theorem Alike.checkRecoveryIntent (h : Alike tel f u v) (nowNs : ℕ) :
    Alike tel f (u.checkRecoveryIntent nowNs).1 (v.checkRecoveryIntent nowNs).1 ∧
      (u.checkRecoveryIntent nowNs).2 = (v.checkRecoveryIntent nowNs).2 := by
  have hissued : ∀ p, v.pendingTo = some p → u.lastIntentVt = v.lastIntentVt := fun p hp =>
    h.issued (Or.inr (by simp [hp]))
  unfold Sequencer.checkRecoveryIntent
  rw [h.intentTarget nowNs, h.pendingTo]
  cases v.intentTarget nowNs with
  | none =>
      cases hp : v.pendingTo with
      | none => exact ⟨h, rfl⟩
      | some p =>
          dsimp only
          rw [hissued p hp]
          split_ifs
          · exact h.issueIntent nowNs p
          · exact ⟨h, rfl⟩
  | some target =>
      have htarget : min target (wrappingAdd u.w MAX_WIRE_REQUEST) =
          min target (wrappingAdd v.w MAX_WIRE_REQUEST) := by rw [h.w]
      dsimp only
      rw [htarget]
      generalize min target (wrappingAdd v.w MAX_WIRE_REQUEST) = t
      cases hp : v.pendingTo with
      | none => exact h.raiseIntent nowNs t
      | some p =>
          dsimp only
          rw [hissued p hp]
          split_ifs
          · exact h.raiseIntent nowNs t
          · exact h.issueIntent nowNs p
          · exact ⟨h, rfl⟩

theorem Alike.drainWindow (h : Alike tel f u v) {gen gen' : ℕ} (hgen : gen = f gen') (nowNs : ℕ) :
    SameStep tel f (u.drainWindow gen nowNs) (v.drainWindow gen' nowNs) := by
  obtain ⟨hwindow, hw, items, hcalls, hcalls'⟩ := h.window.drain v.w gen gen'
  have hlen : (u.window.drain v.w gen).2.2.length = (v.window.drain v.w gen').2.2.length := by
    rw [hcalls, hcalls', deliver, deliver, List.length_map, List.length_map]
  unfold Sequencer.drainWindow
  dsimp only
  rw [h.w, hlen]
  constructor
  · exact { h with
      w := hw
      progressVt := by
        dsimp only
        rw [h.progressVt]
      counters := by
        intro ht
        dsimp only
        rw [h.counters ht]
      wBound := Window.drain_lt _ h.wBound gen'
      window := hwindow }
  · dsimp only
    rw [hcalls, hcalls', hgen, deliver_mapGen]

theorem Alike.clearBehind (h : Alike tel f u v) {newW : ℕ} (hw : newW < 2 ^ 64) (nowNs : ℕ) :
    Alike tel f (u.clearBehind newW nowNs) (v.clearBehind newW nowNs) :=
  { h with
    w := rfl
    progressVt := rfl
    wBound := hw
    window := by
      unfold Sequencer.clearBehind
      rw [h.window.stagedCount, h.mutation, h.mutation', h.w]
      dsimp only
      split
      · exact h.window.clearSlots v.w newW
      · exact h.window }

theorem Alike.advance (h : Alike tel f u v) (last nowNs : ℕ) :
    SameStep tel f (u.advance last nowNs) (v.advance last nowNs) := by
  rw [advance_eq, advance_eq]
  apply SameStep.andThen
  · exact (h.clearBehind (wrappingAdd_lt last 1) nowNs).drainWindow h.gen nowNs
  · intro h'
    exact h'.checkGapClose h.gen

theorem Alike.recordReach (h : Alike tel f u v) (last : ℕ) :
    Alike tel f (u.recordReach last) (v.recordReach last) := by
  exact { h with
    evidenceHwm := by
      unfold Sequencer.recordReach
      rw [h.w, h.evidenceHwm]
    window := {
      sound := ⟨h.window.sound.count, h.window.sound.lens_le⟩
      sound' := ⟨h.window.sound'.count, h.window.sound'.lens_le⟩
      stagedCount := h.window.stagedCount
      maxStaged := congrArg (max · last) h.window.maxStaged
      cell := h.window.cell } }

theorem Alike.settle (h : Alike tel f u v) (nowNs : ℕ) :
    SameStep tel f (u.settle nowNs) (v.settle nowNs) := by
  apply SameStep.andThen (h.drainWindow h.gen nowNs)
  intro h'
  exact h'.checkGapClose h'.gen

/-- Staging the same blocks keeps windows alike. -/
theorem stageAll_alike {win win' : Window} {c c' : Counters} (h : win.Alike win')
    (hc : tel → c = c') (w clamp : ℕ) (items : List (ℕ × List UInt8)) :
    (items.foldl (fun a b => stageBlock w clamp a b.1 b.2) (win, c)).1.Alike
        (items.foldl (fun a b => stageBlock w clamp a b.1 b.2) (win', c')).1 ∧
      (tel → (items.foldl (fun a b => stageBlock w clamp a b.1 b.2) (win, c)).2 =
        (items.foldl (fun a b => stageBlock w clamp a b.1 b.2) (win', c')).2) := by
  induction items generalizing win win' c c' with
  | nil => exact ⟨h, hc⟩
  | cons item items ih =>
      obtain ⟨hwin, hstaged⟩ := h.stageMsg w item.1 item.2
      simp only [List.foldl_cons, stageBlock, hstaged]
      split
      · split
        · exact ih hwin fun ht => by rw [hc ht]
        · exact ih hwin fun ht => by rw [hc ht]
      · exact ih h fun ht => by rw [hc ht]

section Frame

variable {frame : List UInt8} {hdr : Header} (hhdr : parseHeader frame = .ok hdr)

include hhdr in
theorem Alike.applyContiguous (h : Alike tel f u v) (last nowNs : ℕ) :
    SameStep tel f (u.applyContiguous frame hdr hdr.seq last nowNs)
      (v.applyContiguous frame hdr hdr.seq last nowNs) := by
  rw [applyContiguous_walk u hhdr, applyContiguous_walk v hhdr, h.w]
  dsimp only
  generalize min (wrappingSub v.w hdr.seq) hdr.count = skip
  cases walkError frame hdr skip with
  | some e =>
      exact ((h.count _).count _).emitting (by rw [h.gen, deliver_mapGen])
  | none =>
      dsimp only
      obtain ⟨hstate, hcalls⟩ := (h.count _).advance last nowNs
      refine ⟨hstate.retirePending, ?_⟩
      rw [List.map_append, hcalls, h.gen, deliver_mapGen]

include hf hhdr in
theorem Alike.applyGap (h : Alike tel f u v) (last nowNs : ℕ) :
    SameStep tel f (u.applyGap frame hdr hdr.seq last nowNs)
      (v.applyGap frame hdr hdr.seq last nowNs) := by
  rw [applyGap_walk u hhdr, applyGap_walk v hhdr]
  apply SameStep.andThen (h.gapEvidence hf hdr.seq)
  intro h
  generalize (u.gapEvidence hdr.seq).1 = u at *
  generalize (v.gapEvidence hdr.seq).1 = v at *
  generalize hclamp : (if v.mutation = .offByOneClamp then wrappingAdd v.w (WINDOW_SLOTS / 2)
    else wrappingAdd v.w WINDOW_SLOTS) = clamp
  have hclamp' : (if u.mutation = .offByOneClamp then wrappingAdd u.w (WINDOW_SLOTS / 2)
      else wrappingAdd u.w WINDOW_SLOTS) = clamp := by
    rw [h.mutation, h.w, ← h.mutation', hclamp]
  have hstep : stageBlock u.w clamp = stageBlock v.w clamp := by rw [h.w]
  obtain ⟨hwin, hc⟩ := stageAll_alike h.window h.counters v.w clamp
    (validPrefix (headerBlocks frame hdr))
  have hstaged := h.restage hwin hc
  dsimp only
  rw [hclamp', hstep]
  cases walkError frame hdr 0 with
  | some e => exact (hstaged.count _).silent
  | none =>
      obtain ⟨hstate, hcalls⟩ := (hstaged.recordReach last).settle nowNs
      exact Alike.emitting hstate.retirePending hcalls

include hf hhdr in
theorem Alike.applyFrame (h : Alike tel f u v) (last nowNs : ℕ) :
    SameStep tel f (u.applyFrame frame hdr hdr.seq last nowNs)
      (v.applyFrame frame hdr hdr.seq last nowNs) := by
  unfold Sequencer.applyFrame
  rw [h.w]
  split
  · exact h.applyContiguous hhdr last nowNs
  · exact h.applyGap hf hhdr last nowNs

theorem Alike.anchorAt (h : Alike tel f u v) {first : ℕ} (hfirst : first < 2 ^ 64) (nowNs : ℕ) :
    Alike tel f (u.anchorAt first nowNs) (v.anchorAt first nowNs) :=
  { h with
    w := rfl
    progressVt := rfl
    state := rfl
    wBound := hfirst }

include hf hhdr in
theorem Alike.ingestData (h : Alike tel f u v) (feed : FeedId) (nowNs : ℕ) :
    SameStep tel f (u.ingestData frame hdr feed nowNs) (v.ingestData frame hdr feed nowNs) := by
  unfold Sequencer.ingestData
  rw [h.state]
  split
  · exact (h.count _).silent
  · cases hspan : hdr.span with
    | none => exact (h.count _).silent
    | some span =>
        obtain ⟨first, last⟩ := span
        obtain ⟨rfl, -⟩ := Header.span_eq_some hspan
        dsimp only
        rw [h.w]
        split
        · exact (h.anchorAt (parseHeader_bounds hhdr).1 nowNs).applyFrame hf hhdr last nowNs
        · split
          · exact (h.count _).silent
          · exact h.applyFrame hf hhdr last nowNs

include hf hhdr in
theorem Alike.ingestKind (h : Alike tel f u v) (feed : FeedId) (nowNs : ℕ) :
    SameStep tel f (u.ingestKind frame hdr feed nowNs) (v.ingestKind frame hdr feed nowNs) := by
  unfold Sequencer.ingestKind
  split
  · exact h.handleHeartbeat hf hdr.seq nowNs
  · split
    · have hkeep : ∀ s : Sequencer, s.mutation = .none → (if s.mutation = .dropStagedAtEos then
          { s with window := { s.window with lens := fun _ => 0, stagedCount := 0 } } else s) = s :=
        fun s hs => if_neg (by rw [hs]; decide)
      rw [hkeep u h.mutation, hkeep v h.mutation']
      exact h.handleEos hdr
    · exact h.ingestData hf hhdr feed nowNs

end Frame

/-- Both sides of a boundary, with the window flushed if something was staged. -/
theorem Alike.cross (h : Alike tel f u v) (next : SessionId) {win win' : Window}
    (hwin : win.Alike win') {c c' : Counters} (hc : tel → c = c') {gen gen' : ℕ}
    (hgen : gen = f gen') :
    Alike tel f
      { u with
        session := next
        counters := c
        window := { win with maxStaged := 0 }
        gapActive := false
        evidenceHwm := 0
        hbSeq := 0
        hbVt := 0
        pendingTo := none
        gen := gen
        state := .init }
      { v with
        session := next
        counters := c'
        window := { win' with maxStaged := 0 }
        gapActive := false
        evidenceHwm := 0
        hbSeq := 0
        hbVt := 0
        pendingTo := none
        gen := gen'
        state := .init } :=
  { h with
    gen := hgen
    session := rfl
    state := rfl
    gapActive := rfl
    evidenceHwm := rfl
    hbSeq := rfl
    hbVt := rfl
    pendingTo := rfl
    issued := fun ht => h.issued (ht.imp_right fun hne => absurd rfl hne)
    counters := hc
    window := hwin.resetMax }

include hf in
theorem Alike.sessionDispatch (h : Alike tel f u v) (next : SessionId) :
    SameStep tel f (u.sessionDispatch next) (v.sessionDispatch next) := by
  have hgen : wrappingAdd u.gen 1 = f (wrappingAdd v.gen 1) := by rw [h.gen, hf]
  unfold Sequencer.sessionDispatch
  rw [h.session]
  split
  · have hadopts := h.count fun c => { c with sessions := c.sessions + 1 }
    exact Alike.silent { hadopts with session := rfl }
  · split
    · dsimp only
      rw [h.window.stagedCount]
      split
      · exact (h.cross next h.window.flush (fun ht => by rw [h.counters ht]) hgen).emitting
          (by simp [SinkCall.mapGen, hgen])
      · exact (h.cross next h.window (fun ht => by rw [h.counters ht]) hgen).emitting
          (by simp [SinkCall.mapGen, hgen])
    · exact h.silent

/-- The template follows from the session. -/
theorem Alike.refresh (h : Alike tel f u v) {c c' : Prop} [Decidable c] [Decidable c']
    (hc : tel → (c ↔ c')) :
    Alike tel f (if c then u.refreshSessionTmpl else u) (if c' then v.refreshSessionTmpl else v) := by
  split
  · rename_i hu
    split
    · exact { h with template := fun _ => by simp [refreshSessionTmpl, h.session] }
    · rename_i hv
      exact { h with template := fun ht => absurd ((hc ht).mp hu) hv }
  · rename_i hu
    split
    · rename_i hv
      exact { h with template := fun ht => absurd ((hc ht).mpr hv) hu }
    · exact h

include hf in
theorem Alike.dispatchSession (h : Alike tel f u v) (next : SessionId) :
    SameStep tel f (u.dispatchSession next) (v.dispatchSession next) := by
  obtain ⟨hstate, hcalls⟩ := h.sessionDispatch hf next
  exact ⟨hstate.refresh fun ht => by rw [(hstate.template ht).2.2, hstate.session, h.session],
    hcalls⟩

include hf in
theorem Alike.ingest (h : Alike tel f u v) (frame : List UInt8) (feed : FeedId) (nowNs : ℕ) :
    SameStep tel f (u.ingest frame feed nowNs) (v.ingest frame feed nowNs) := by
  have hcount : Alike tel f (u.countPacket frame feed) (v.countPacket frame feed) := h.count _
  unfold Sequencer.ingest
  dsimp only
  split
  · exact (hcount.count _).silent
  · cases hhdr : parseHeader frame with
    | error e => exact (hcount.count _).silent
    | ok hdr =>
        dsimp only
        rw [hcount.state]
        split
        · exact (hcount.count _).silent
        · apply SameStep.andThen (hcount.dispatchSession hf hdr.session)
          intro h
          exact h.ingestKind hf hhdr feed nowNs

include hf in
/-- States alike answer every call alike. -/
theorem Alike.step (h : Alike tel f u v) (i : Input) :
    Alike tel f (u.step i).1 (v.step i).1 ∧ (u.step i).2 = (v.step i).2.map (Output.mapGen f) := by
  have hsinks : ∀ calls : List SinkCall, (calls.map (SinkCall.mapGen f)).map Output.sink =
      (calls.map Output.sink).map (Output.mapGen f) := by
    intro calls
    rw [List.map_map, List.map_map]
    rfl
  cases i with
  | frame bytes feed nowNs =>
      obtain ⟨hstate, hcalls⟩ := h.ingest hf bytes feed nowNs
      exact ⟨hstate, (congrArg (List.map Output.sink) hcalls).trans (hsinks _)⟩
  | recoveryIntent nowNs =>
      obtain ⟨hstate, hanswer⟩ := h.checkRecoveryIntent nowNs
      exact ⟨hstate, congrArg (fun answer => [Output.intent answer]) hanswer⟩
  | sealDead reason =>
      obtain ⟨hstate, hcalls⟩ := h.sealDead reason
      exact ⟨hstate, (congrArg (List.map Output.sink) hcalls).trans (hsinks _)⟩

include hf in
/-- States alike answer every further run alike. -/
theorem Alike.run (h : Alike tel f u v) (inputs : List Input) :
    Alike tel f (Machine.run Sequencer.step u inputs).1 (Machine.run Sequencer.step v inputs).1 ∧
      (Machine.run Sequencer.step u inputs).2 =
        (Machine.run Sequencer.step v inputs).2.map (Output.mapGen f) :=
  Machine.run_simulation (fun _ _ i h => h.step hf i) h inputs

end Alike

/-- Every reachable state is alike to itself. -/
theorem run_alike (inputs : List Input) :
    Alike True id (Sequencer.run inputs).1 (Sequencer.run inputs).1 :=
  (new_alike.run (fun _ => rfl) inputs).1

end Sequencer

end HftProj.Arbitrator
