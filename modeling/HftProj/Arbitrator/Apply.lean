import HftProj.Arbitrator.Coherence

/-!
# The apply stage in a coherent state

One equation for each function of the apply stage, over coherent states and data
frames whose numbers stay clear of the top of the range. A walk becomes a list of
blocks, the window becomes a reorder buffer, and what remains is stated up to `core`.
-/

namespace HftProj.Arbitrator

open HftProj.Lib HftProj.Protocol HftProj.Protocol.Moldudp64 HftProj.Protocol.Packet

/-- Numbered payloads as the sink calls that deliver them. -/
def deliver (proof : LiveFeedProof) (items : List (ℕ × List UInt8)) : List SinkCall :=
  items.map fun i => .onMsg proof i.1 i.2

@[simp] theorem deliver_nil (proof : LiveFeedProof) : deliver proof [] = [] := rfl

theorem deliver_append (proof : LiveFeedProof) (is js : List (ℕ × List UInt8)) :
    deliver proof (is ++ js) = deliver proof is ++ deliver proof js := List.map_append

theorem callsOf_eq_deliver (proof : LiveFeedProof) (b : ReorderBuffer (List UInt8) WINDOW_SLOTS)
    (start : ℕ) :
    Window.callsOf proof b.held start (b.firstMissing start - start) =
      deliver proof (b.released start) := by
  simp only [Window.callsOf, deliver, ReorderBuffer.released, List.map_filterMap]
  apply List.filterMap_congr
  intro q _
  cases b.held q <;> rfl

namespace Sequencer

/-! ## Walk callbacks -/

theorem foldl_emitBlock (proof : LiveFeedProof) (items : List (ℕ × List UInt8))
    (acc : List SinkCall × ℕ) :
    items.foldl (fun a b => emitBlock proof a b.1 b.2) acc =
      (acc.1 ++ deliver proof items, acc.2 + items.length) := by
  induction items generalizing acc with
  | nil => simp
  | cons i items ih =>
      rw [List.foldl_cons, ih]
      simp [emitBlock, deliver, Nat.add_assoc, Nat.add_comm 1]

/-- The blocks of a staging walk that fall outside the window. -/
def beyond (w : ℕ) (items : List (ℕ × List UInt8)) : ℕ :=
  items.countP fun i => decide (w + WINDOW_SLOTS ≤ i.1)

/-- The staging walk holds the items inside the window and counts the others. -/
structure Staged (b : ReorderBuffer (List UInt8) WINDOW_SLOTS) (win : Window) (c : Counters)
    (items : List (ℕ × List UInt8)) (r : Window × Counters) : Prop where
  sound : r.1.Sound
  held : r.1.held b.next = (b.holdAll items).held
  maxStaged : r.1.maxStaged = win.maxStaged
  counters : ∃ n, r.2 = { c with
    stagedMsgs := n
    beyondWindowDropped := c.beyondWindowDropped + beyond b.next items }

theorem stageBlock_spec {b : ReorderBuffer (List UInt8) WINDOW_SLOTS} {win : Window}
    {c : Counters} (hs : win.Sound) (hheld : win.held b.next = b.held) {q : ℕ}
    {d : List UInt8} (hq : b.next < q) (hlim : q < 2 ^ 64) (hd : d.length ≤ 64) :
    Staged b win c [(q, d)] (stageBlock b.next (b.next + WINDOW_SLOTS) (win, c) q d) := by
  by_cases hin : q < b.next + WINDOW_SLOTS
  · have hrun : stageBlock b.next (b.next + WINDOW_SLOTS) (win, c) q d =
        (win.put (q % WINDOW_SLOTS) d, { c with stagedMsgs := c.stagedMsgs + 1 }) := by
      simp only [stageBlock, if_pos hin, Window.stageMsg_eq_put ⟨hq, hin⟩ hlim hd, if_true]
    rw [hrun]
    refine ⟨hs.put (Window.slot_lt q) hd, ?_, rfl, c.stagedMsgs + 1, ?_⟩
    · funext p
      rw [Window.put_held hs ⟨hq.le, hin⟩ hd, hheld]
      change _ = (b.hold q d).held p
      rw [ReorderBuffer.hold_held, Function.update_apply]
      by_cases hp : p = q
      · rw [if_pos hp, if_pos ⟨hp, hq, hin⟩]
      · rw [if_neg hp, if_neg fun h => hp h.1]
    · simp [beyond, Nat.not_le.mpr hin]
  · have hrun : stageBlock b.next (b.next + WINDOW_SLOTS) (win, c) q d =
        (win, { c with beyondWindowDropped := c.beyondWindowDropped + 1 }) := by
      simp only [stageBlock, if_neg hin]
    rw [hrun]
    refine ⟨hs, ?_, rfl, c.stagedMsgs, ?_⟩
    · funext p
      change _ = (b.hold q d).held p
      rw [hheld, ReorderBuffer.hold_held, if_neg fun h => hin h.2.2]
    · simp [beyond, Nat.not_lt.mp hin]

theorem foldl_stageBlock {b : ReorderBuffer (List UInt8) WINDOW_SLOTS} {win : Window}
    {c : Counters} (hs : win.Sound) (hheld : win.held b.next = b.held)
    {items : List (ℕ × List UInt8)}
    (hi : ∀ i ∈ items, b.next < i.1 ∧ i.1 < 2 ^ 64 ∧ i.2.length ≤ 64) :
    Staged b win c items
      (items.foldl (fun a i => stageBlock b.next (b.next + WINDOW_SLOTS) a i.1 i.2) (win, c)) := by
  induction items generalizing b win c with
  | nil => exact ⟨hs, hheld, rfl, c.stagedMsgs, by simp [beyond]⟩
  | cons i items ih =>
      obtain ⟨q, d⟩ := i
      obtain ⟨hq, hlim, hd⟩ := hi (q, d) (by simp)
      have hfirst := stageBlock_spec (c := c) hs hheld hq hlim hd
      obtain ⟨n, hn⟩ := hfirst.counters
      have hnext : (b.hold q d).next = b.next := ReorderBuffer.hold_next _ _ _
      have hrest := ih (b := b.hold q d) (c := (stageBlock b.next (b.next + WINDOW_SLOTS)
        (win, c) q d).2) hfirst.sound (by rw [hnext]; exact hfirst.held)
        fun j hj => by rw [hnext]; exact hi j (List.mem_cons_of_mem _ hj)
      rw [hnext] at hrest
      rw [List.foldl_cons]
      obtain ⟨m, hm⟩ := hrest.counters
      refine ⟨hrest.sound, ?_, hrest.maxStaged.trans hfirst.maxStaged, m, ?_⟩
      · have := hrest.held
        rw [hnext] at this
        exact this
      · rw [hm, hn, hnext]
        simp only [beyond, List.countP_cons, List.countP_nil, Counters.mk.injEq, true_and,
          and_true]
        omega

/-! ## Draining and advancing -/

theorem drainWindow_of_empty {s : Sequencer} (h : s.window.stagedCount = 0) (gen nowNs : ℕ) :
    s.drainWindow gen nowNs = (s, []) := by
  have hrun : s.window.drain s.w gen = (s.window, s.w, []) := by
    simp only [Window.drain, if_pos h]
  simp [drainWindow, hrun]

/-- The state of `advance` before it drains. -/
def clearBehind (s : Sequencer) (newW nowNs : ℕ) : Sequencer :=
  { s with
    w := newW
    progressVt := nowNs
    window := if s.window.stagedCount ≠ 0 ∧ s.mutation ≠ .disableClearOnAdvance then
        s.window.clearSlots s.w newW
      else s.window }

/-- The guards of `advance` repeat those of the functions they guard. -/
theorem advance_eq (s : Sequencer) (last nowNs : ℕ) :
    s.advance last nowNs =
      ((s.clearBehind (wrappingAdd last 1) nowNs).drainWindow s.gen nowNs).andThen
        fun t => t.checkGapClose s.gen := by
  have hclear : clearBehind s (wrappingAdd last 1) nowNs =
      { (if s.window.stagedCount ≠ 0 ∧ s.mutation ≠ .disableClearOnAdvance then
          ({ s with
            w := wrappingAdd last 1
            window := s.window.clearSlots s.w (wrappingAdd last 1) } : Sequencer)
        else { s with w := wrappingAdd last 1 }) with progressVt := nowNs } := by
    unfold clearBehind
    split <;> rfl
  have hdrain : ∀ t : Sequencer, (if t.window.stagedCount ≠ 0 then t.drainWindow s.gen nowNs
      else (t, [])) = t.drainWindow s.gen nowNs := by
    intro t
    by_cases h0 : t.window.stagedCount = 0
    · rw [if_neg (not_not.mpr h0), drainWindow_of_empty h0]
    · rw [if_pos h0]
  have hclose : (fun t : Sequencer => if t.gapActive then t.checkGapClose s.gen else (t, [])) =
      fun t => t.checkGapClose s.gen := by
    funext t
    by_cases hg : t.gapActive
    · simp [hg]
    · simp [hg, checkGapClose]
  rw [hclear, ← hdrain, ← hclose]
  rfl

theorem checkGapClose_core (s : Sequencer) (gen : ℕ) :
    (s.checkGapClose gen).1.core = (s.core.checkGapClose gen).1.core ∧
      (s.checkGapClose gen).2 = (s.core.checkGapClose gen).2 := by
  by_cases h : s.gapActive ∧ s.w ≥ s.evidenceHwm
  · have h' : s.core.gapActive ∧ s.core.w ≥ s.core.evidenceHwm := h
    simp only [checkGapClose, if_pos h, if_pos h']
    exact ⟨rfl, rfl⟩
  · have h' : ¬(s.core.gapActive ∧ s.core.w ≥ s.core.evidenceHwm) := h
    simp only [checkGapClose, if_neg h, if_neg h']
    exact ⟨rfl, trivial⟩

theorem checkGapClose_congr {s t : Sequencer} (h : t.core = s.core) (gen : ℕ) :
    (t.checkGapClose gen).1.core = (s.checkGapClose gen).1.core ∧
      (t.checkGapClose gen).2 = (s.checkGapClose gen).2 := by
  rw [(checkGapClose_core t gen).1, (checkGapClose_core s gen).1,
    (checkGapClose_core t gen).2, (checkGapClose_core s gen).2, h]
  exact ⟨rfl, rfl⟩

/-- Past a completed walk the watermark is the first number not staged from `last + 1` on. -/
theorem advance_spec {s : Sequencer} (h : s.Coherent) {last : ℕ} (hlast : s.w ≤ last)
    (hlim : last + 1 ≤ seqLimit) (nowNs : ℕ) :
    ∃ win : Window, win.Sound ∧
      win.held (h.buffer.firstMissing (last + 1)) =
        (h.buffer.skipTo (last + 1) (Nat.le_succ_of_le hlast)).held ∧
      (s.advance last nowNs).1.core = (({ s with
        w := h.buffer.firstMissing (last + 1), window := win }).checkGapClose s.gen).1.core ∧
      (s.advance last nowNs).2 = deliver ⟨s.gen⟩ (h.buffer.released (last + 1)) ++
        (({ s with
          w := h.buffer.firstMissing (last + 1), window := win }).checkGapClose s.gen).2 := by
  have hwb := h.wBound
  unfold seqLimit at hlim hwb
  have hwrap : wrappingAdd last 1 = last + 1 := wrappingAdd_of_lt (by omega)
  -- the window left by clear-on-advance
  obtain ⟨hs₁, hheld₁⟩ : (s.clearBehind (last + 1) nowNs).window.Sound ∧
      ∀ q, (s.clearBehind (last + 1) nowNs).window.held (last + 1) q =
        if last + 1 ≤ q then s.held q else none := by
    by_cases h0 : s.window.stagedCount = 0
    · have hwin : (s.clearBehind (last + 1) nowNs).window = s.window := by
        simp [clearBehind, h0]
      rw [hwin]
      refine ⟨h.sound, fun q => ?_⟩
      rw [h.sound.held_eq_none h0, held, h.sound.held_eq_none h0]
      split <;> rfl
    · have hwin : (s.clearBehind (last + 1) nowNs).window =
          s.window.clearSlots s.w (last + 1) :=
        if_pos ⟨h0, by rw [h.mutation]; simp⟩
      rw [hwin]
      exact Window.clearSlots_spec h.sound (Nat.lt_succ_of_le hlast) (by omega)
  rw [advance_eq, hwrap, Traced.andThen_fst, Traced.andThen_snd]
  generalize hwin₁ : (s.clearBehind (last + 1) nowNs).window = win₁ at hs₁ hheld₁
  have hd : Window.Drained ⟨s.gen⟩ win₁ (last + 1) (win₁.drain (last + 1) s.gen) :=
    Window.drain_spec hs₁ fun q hq => by
      have hin := (RingWindow.mem_of_view_ne_none hq).2
      unfold WINDOW_SLOTS at hin
      omega
  have hle := hd.le
  have hmiss : h.buffer.firstMissing (last + 1) = (win₁.drain (last + 1) s.gen).2.1 := by
    apply ReorderBuffer.firstMissing_eq hle
    · intro q hq₁ hq₂
      have := hd.run q hq₁ hq₂
      rwa [hheld₁, if_pos hq₁] at this
    · have := hd.stop
      rwa [hheld₁, if_pos hle] at this
  have hcalls : (win₁.drain (last + 1) s.gen).2.2 =
      deliver ⟨s.gen⟩ (h.buffer.released (last + 1)) := by
    rw [← callsOf_eq_deliver, hd.calls, hmiss]
    apply List.filterMap_congr
    intro q hq
    rw [List.mem_range'_1] at hq
    rw [hheld₁, if_pos hq.1]
    rfl
  refine ⟨(win₁.drain (last + 1) s.gen).1, hd.sound, ?_, ?_⟩
  · funext q
    rw [hmiss, hd.kept, hheld₁]
    simp only [ReorderBuffer.skipTo, hmiss]
    by_cases hq : (win₁.drain (last + 1) s.gen).2.1 ≤ q
    · rw [if_pos hq, if_pos hq, if_pos (hle.trans hq)]
      rfl
    · rw [if_neg hq, if_neg hq]
  · have hcore : ((s.clearBehind (last + 1) nowNs).drainWindow s.gen nowNs).1.core =
        core { s with
          w := (win₁.drain (last + 1) s.gen).2.1
          window := (win₁.drain (last + 1) s.gen).1 } := by
      rw [← hwin₁]
      rfl
    have hout : ((s.clearBehind (last + 1) nowNs).drainWindow s.gen nowNs).2 =
        (win₁.drain (last + 1) s.gen).2.2 := by
      rw [← hwin₁]
      rfl
    rw [hmiss, ← hcalls, hout]
    refine ⟨(checkGapClose_congr hcore s.gen).1, ?_⟩
    rw [(checkGapClose_congr hcore s.gen).2]

/-! ## Data frames -/

/-- A data frame whose sequence numbers stay clear of the top of the range. -/
structure DataFrame (frame : List UInt8) (hdr : Header) (first last : ℕ) : Prop where
  parsed : parseHeader frame = .ok hdr
  span : hdr.span = some (first, last)
  inRange : hdr.seq < 2 ^ 64 - 2 ^ 17

section DataFrame

variable {frame : List UInt8} {hdr : Header} {first last : ℕ}

theorem DataFrame.bounds (hf : DataFrame frame hdr first last) :
    first = hdr.seq ∧ last + 1 = first + hdr.count ∧ first ≤ last ∧ last + 1 ≤ seqLimit := by
  obtain ⟨h₁, h₂, -, h₃, -⟩ := Header.span_eq_some hf.span
  have hcount := (parseHeader_bounds hf.parsed).2
  have hseq := hf.inRange
  unfold seqLimit
  omega

/-- The payloads of the complete blocks of the frame. -/
def payloads (frame : List UInt8) (hdr : Header) : List (List UInt8) :=
  (splitBlocks hdr.count (frame.drop HEADER_LEN)).1

theorem DataFrame.blocks (hf : DataFrame frame hdr first last) :
    headerBlocks frame hdr = number first (payloads frame hdr) := by
  obtain ⟨rfl, h₂, -, h₄⟩ := hf.bounds
  unfold seqLimit at h₄
  exact headerBlocks_eq (by omega)

/-- A prefix of the frame's blocks lies in its span. -/
theorem DataFrame.length_le (hf : DataFrame frame hdr first last) :
    first + (payloads frame hdr).length ≤ last + 1 := by
  have hle := splitBlocks_length_le hdr.count (frame.drop HEADER_LEN)
  obtain ⟨-, h₂, -, -⟩ := hf.bounds
  unfold payloads
  omega

/-- A walk that ends well saw one block for each number of the span. -/
theorem DataFrame.length_eq (hf : DataFrame frame hdr first last) {skip : ℕ}
    (hok : walkError frame hdr skip = none) :
    first + (payloads frame hdr).length = last + 1 := by
  obtain ⟨-, h₂, -, -⟩ := hf.bounds
  unfold payloads
  rw [splitBlocks_length (walkError_none hok).1]
  omega

theorem retirePending_core (s : Sequencer) : s.retirePending.core = s.core := by
  unfold retirePending
  split
  · split <;> rfl
  · rfl

/-- `applyContiguous` with its walk replaced by the blocks that it delivers. -/
theorem applyContiguous_walk (s : Sequencer) (hhdr : parseHeader frame = .ok hdr)
    (last nowNs : ℕ) :
    s.applyContiguous frame hdr hdr.seq last nowNs =
      (let skip := min (wrappingSub s.w hdr.seq) hdr.count
       let items := validPrefix ((headerBlocks frame hdr).drop skip)
       let s' := s.count fun c =>
         { c with dupMsgs := c.dupMsgs + skip, msgsEmitted := c.msgsEmitted + items.length }
       match walkError frame hdr skip with
       | some e => (s'.count fun c => c.recordPacketError e, deliver ⟨s.gen⟩ items)
       | none => ((s'.advance last nowNs).1.retirePending,
           deliver ⟨s.gen⟩ items ++ (s'.advance last nowNs).2)) := by
  have hwalk := fun skip => ingestWalk_validated (emitBlock ⟨s.gen⟩) hhdr skip ([], 0)
  simp only [foldl_emitBlock, List.nil_append, Nat.zero_add] at hwalk
  have hdup : ∀ skip n, (if skip ≠ 0 then s.count fun c => { c with dupMsgs := c.dupMsgs + skip }
      else s).count (fun c => { c with msgsEmitted := c.msgsEmitted + n }) =
      s.count fun c => { c with dupMsgs := c.dupMsgs + skip, msgsEmitted := c.msgsEmitted + n } := by
    intro skip n
    by_cases h0 : skip = 0
    · rw [if_neg (not_not.mpr h0), h0]
      rfl
    · rw [if_pos h0]
      rfl
  simp only [applyContiguous, hwalk, hdup]
  cases walkError frame hdr (min (wrappingSub s.w hdr.seq) hdr.count) with
  | some e => rfl
  | none => rfl

/-- The walk of `applyContiguous` in a coherent state. -/
theorem applyContiguous_eq {s : Sequencer} (hf : DataFrame frame hdr first last)
    (hfirst : first ≤ s.w) (hlast : s.w ≤ last) (nowNs : ℕ) :
    ∃ s' : Sequencer, s'.core = s.core ∧
      s.applyContiguous frame hdr first last nowNs =
        match walkError frame hdr (s.w - first) with
        | some e => (s'.count fun c => c.recordPacketError e,
            deliver ⟨s.gen⟩ (validPrefix ((headerBlocks frame hdr).drop (s.w - first))))
        | none => ((s'.advance last nowNs).1.retirePending,
            deliver ⟨s.gen⟩ ((headerBlocks frame hdr).drop (s.w - first)) ++
              (s'.advance last nowNs).2) := by
  obtain ⟨h₁, h₂, h₃, h₄⟩ := hf.bounds
  unfold seqLimit at h₄
  have hskip : min (wrappingSub s.w first) hdr.count = s.w - first := by
    rw [wrappingSub_of_le hfirst (by omega)]
    omega
  have hwalk := s.applyContiguous_walk hf.parsed last nowNs
  rw [← h₁] at hwalk
  simp only [hskip] at hwalk
  rw [hwalk]
  refine ⟨s.count fun c =>
    { c with
      dupMsgs := c.dupMsgs + (s.w - first)
      msgsEmitted := c.msgsEmitted +
        (validPrefix ((headerBlocks frame hdr).drop (s.w - first))).length }, rfl, ?_⟩
  cases hw : walkError frame hdr (s.w - first) with
  | some e => rfl
  | none => rw [validPrefix_eq_self (walkError_none hw).2]

/-- A rejected frame behind or at the watermark delivers its valid prefix and
changes nothing else. -/
theorem applyContiguous_error {s : Sequencer} (hf : DataFrame frame hdr first last)
    (hfirst : first ≤ s.w) (hlast : s.w ≤ last) (nowNs : ℕ) {e : PacketError}
    (he : walkError frame hdr (s.w - first) = some e) :
    (s.applyContiguous frame hdr first last nowNs).1.core = s.core ∧
      (s.applyContiguous frame hdr first last nowNs).2 =
        deliver ⟨s.gen⟩ (validPrefix ((headerBlocks frame hdr).drop (s.w - first))) := by
  obtain ⟨s', hcore, hrun⟩ := applyContiguous_eq hf hfirst hlast nowNs
  rw [hrun, he]
  exact ⟨hcore, rfl⟩

/-- An accepted frame behind or at the watermark delivers its new blocks and the
staged run behind them. -/
theorem applyContiguous_ok {s : Sequencer} (h : s.Coherent)
    (hf : DataFrame frame hdr first last)
    (hfirst : first ≤ s.w) (hlast : s.w ≤ last) (nowNs : ℕ)
    (hok : walkError frame hdr (s.w - first) = none) :
    ∃ win : Window, win.Sound ∧
      win.held (h.buffer.firstMissing (last + 1)) =
        (h.buffer.skipTo (last + 1) (Nat.le_succ_of_le hlast)).held ∧
      (s.applyContiguous frame hdr first last nowNs).1.core = (({ s with
        w := h.buffer.firstMissing (last + 1), window := win }).checkGapClose s.gen).1.core ∧
      (s.applyContiguous frame hdr first last nowNs).2 =
        deliver ⟨s.gen⟩ ((headerBlocks frame hdr).drop (s.w - first)) ++
          (deliver ⟨s.gen⟩ (h.buffer.released (last + 1)) ++
          (({ s with
            w := h.buffer.firstMissing (last + 1), window := win }).checkGapClose s.gen).2) := by
  obtain ⟨-, -, -, h₄⟩ := hf.bounds
  obtain ⟨s', hcore, hrun⟩ := applyContiguous_eq hf hfirst hlast nowNs
  have h' : s'.Coherent := h.of_core hcore
  have hbuf : h'.buffer = h.buffer :=
    ReorderBuffer.ext (w_of_core hcore) (held_of_core hcore)
  have hlast' : s'.w ≤ last := by
    rw [w_of_core hcore]
    exact hlast
  obtain ⟨win, hs, hheld, hst, hout⟩ := advance_spec h' hlast' h₄ nowNs
  simp only [hbuf] at hheld hst hout
  have hmoved : core { s' with w := h.buffer.firstMissing (last + 1), window := win } =
      core { s with w := h.buffer.firstMissing (last + 1), window := win } :=
    calc _ = core { s'.core with
            w := h.buffer.firstMissing (last + 1), window := win } := rfl
      _ = _ := by rw [hcore]; rfl
  rw [(checkGapClose_congr hmoved s'.gen).1, gen_of_core hcore] at hst
  rw [(checkGapClose_congr hmoved s'.gen).2, gen_of_core hcore] at hout
  rw [hrun, hok]
  refine ⟨win, hs, hheld, (retirePending_core _).trans hst, ?_⟩
  rw [← hout]

/-! ## Gap evidence and staging -/

theorem gapEvidence_window (s : Sequencer) (x : ℕ) :
    (s.gapEvidence x).1.window = s.window ∧ (s.gapEvidence x).1.w = s.w ∧
      (s.gapEvidence x).1.mutation = s.mutation := by
  unfold gapEvidence
  split
  · exact ⟨rfl, rfl, rfl⟩
  · split <;> exact ⟨rfl, rfl, rfl⟩

/-- Evidence ahead of the watermark leaves a gap open that reaches at least that far. -/
theorem gapEvidence_open {s : Sequencer} {x : ℕ} (hx : s.w < x) :
    (s.gapEvidence x).1.gapActive = true ∧ x ≤ (s.gapEvidence x).1.evidenceHwm := by
  unfold gapEvidence
  by_cases hg : s.gapActive
  · simp [hg]
  · simp [hg, hx]

theorem drainWindow_of_empty_slot {s : Sequencer} (h : s.held s.w = none) (gen nowNs : ℕ) :
    s.drainWindow gen nowNs = (s, []) := by
  have hrun : s.window.drain s.w gen = (s.window, s.w, []) :=
    Window.drain_of_empty_slot (Window.lens_eq_zero_of_held h)
  simp [drainWindow, hrun]

/-- With the slot of the watermark empty and the evidence ahead there is nothing to settle. -/
theorem settle_eq {s : Sequencer} (hw : s.held s.w = none) (hhwm : s.w < s.evidenceHwm)
    (nowNs : ℕ) : s.settle nowNs = (s, []) := by
  have hopen : s.checkGapClose s.gen = (s, []) :=
    if_neg fun hc => absurd hc.2 (Nat.not_le.mpr hhwm)
  rw [settle, drainWindow_of_empty_slot hw]
  simp [Traced.andThen, hopen]

theorem recordReach_eq (s : Sequencer) (last : ℕ) :
    (s.recordReach last).w = s.w ∧ (s.recordReach last).held = s.held ∧
      (s.recordReach last).gapActive = s.gapActive ∧
      s.evidenceHwm ≤ (s.recordReach last).evidenceHwm := by
  refine ⟨rfl, rfl, rfl, ?_⟩
  unfold recordReach
  dsimp only
  split <;> omega

/-- `applyGap` with its walk replaced by the blocks that it stages. -/
theorem applyGap_walk (s : Sequencer) (hhdr : parseHeader frame = .ok hdr) (last nowNs : ℕ) :
    s.applyGap frame hdr hdr.seq last nowNs =
      (s.gapEvidence hdr.seq).andThen fun s =>
        let maxClamp := if s.mutation = .offByOneClamp then wrappingAdd s.w (WINDOW_SLOTS / 2)
          else wrappingAdd s.w WINDOW_SLOTS
        let staged := (validPrefix (headerBlocks frame hdr)).foldl
          (fun a b => stageBlock s.w maxClamp a b.1 b.2) (s.window, s.counters)
        let s := { s with window := staged.1, counters := staged.2 }
        match walkError frame hdr 0 with
        | some e => (s.count fun c => c.recordPacketError e, [])
        | none =>
            let r := (s.recordReach last).settle nowNs
            (r.1.retirePending, r.2) := by
  simp only [applyGap, ingestWalk_validated _ hhdr, List.drop_zero]
  cases walkError frame hdr 0 with
  | some e => rfl
  | none => rfl

/-- The staging walk of `applyGap`; its drain and its gap-close check find nothing to do,
since the watermark itself is not staged. -/
theorem applyGap_eq {s : Sequencer} (h : s.Coherent) (hf : DataFrame frame hdr first last)
    (hfirst : s.w < first) (nowNs : ℕ) :
    ∃ win c, Staged h.buffer s.window (s.gapEvidence first).1.counters
        (validPrefix (headerBlocks frame hdr)) (win, c) ∧
      s.applyGap frame hdr first last nowNs =
        match walkError frame hdr 0 with
        | some e => (({ (s.gapEvidence first).1 with window := win, counters := c }).count
            fun c => c.recordPacketError e, (s.gapEvidence first).2)
        | none => ((({ (s.gapEvidence first).1 with window := win, counters := c }).recordReach
              last).retirePending, (s.gapEvidence first).2) := by
  obtain ⟨h₁, h₂, h₃, h₄⟩ := hf.bounds
  obtain ⟨hwin, hw, hmut⟩ := s.gapEvidence_window first
  obtain ⟨hopen, hhwm⟩ := gapEvidence_open hfirst
  generalize hs₁ : s.gapEvidence first = r at hwin hw hmut hopen hhwm
  have hwb := h.wBound
  unfold seqLimit at h₄ hwb
  have hwrap : wrappingAdd s.w WINDOW_SLOTS = s.w + WINDOW_SLOTS :=
    wrappingAdd_of_lt (by unfold WINDOW_SLOTS; omega)
  have hwrap' : wrappingAdd last 1 = last + 1 := wrappingAdd_of_lt (by omega)
  have hitems : ∀ i ∈ validPrefix (headerBlocks frame hdr),
      h.buffer.next < i.1 ∧ i.1 < 2 ^ 64 ∧ i.2.length ≤ 64 := by
    intro i hi
    obtain ⟨hmem, hvalid⟩ := validate_of_mem_validPrefix hi
    rw [hf.blocks] at hmem
    have hb := mem_number_bounds (p := i.1) (x := i.2) hmem
    have hlen := hf.length_le
    have := Itch5.validate_length hvalid
    rw [h.buffer_next]
    omega
  have hstage := foldl_stageBlock (b := h.buffer) (c := r.1.counters) h.sound rfl hitems
  have hwalk := s.applyGap_walk hf.parsed last nowNs
  rw [← h₁] at hwalk
  rw [h.buffer_next] at hstage
  have hclamp : (if r.1.mutation = .offByOneClamp then wrappingAdd s.w (WINDOW_SLOTS / 2)
      else s.w + WINDOW_SLOTS) = s.w + WINDOW_SLOTS := by
    rw [hmut, h.mutation]
    rfl
  rw [hs₁] at hwalk
  simp only [Traced.andThen, hw, hwin, hwrap, hclamp] at hwalk ⊢
  rw [hwalk]
  generalize (validPrefix (headerBlocks frame hdr)).foldl
    (fun a b => stageBlock s.w (s.w + WINDOW_SLOTS) a b.1 b.2) (s.window, r.1.counters) = staged
    at hstage
  refine ⟨staged.1, staged.2, hstage, ?_⟩
  cases hwe : walkError frame hdr 0 with
  | some e => simp
  | none =>
      have hnone : staged.1.held s.w s.w = none := by
        have := (h.buffer.holdAll (validPrefix (headerBlocks frame hdr))).held_next
        rwa [← hstage.held, ReorderBuffer.holdAll_next] at this
      obtain ⟨hrw, hrheld, -, hrhwm⟩ := recordReach_eq
        { r.1 with window := staged.1, counters := staged.2 } last
      have hset := settle_eq (s := recordReach
          { r.1 with window := staged.1, counters := staged.2 } last)
        (by rw [hrheld, hrw, held]; simpa only [hw] using hnone)
        (by rw [hrw]; exact lt_of_lt_of_le (by simp only [hw]; omega) hrhwm) nowNs
      simp only [hw] at hset
      simp only [hset, List.append_nil]

end DataFrame

/-! ## States

These facts hold in every state, whatever the frame. -/

theorem retirePending_state (s : Sequencer) : s.retirePending.state = s.state := by
  unfold retirePending
  split
  · split <;> rfl
  · rfl

theorem checkGapClose_state (s : Sequencer) (gen : ℕ) :
    (s.checkGapClose gen).1.state = s.state ∨ (s.checkGapClose gen).1.state = .contig := by
  unfold checkGapClose
  split
  · exact Or.inr rfl
  · exact Or.inl rfl

theorem gapEvidence_state (s : Sequencer) (x : ℕ) :
    (s.gapEvidence x).1.state = s.state ∨ (s.gapEvidence x).1.state = .gap := by
  unfold gapEvidence
  split
  · exact Or.inr rfl
  · split <;> exact Or.inl rfl

theorem advance_state (s : Sequencer) (last nowNs : ℕ) :
    (s.advance last nowNs).1.state = s.state ∨ (s.advance last nowNs).1.state = .contig := by
  rw [advance_eq]
  exact checkGapClose_state _ _

theorem applyFrame_state (s : Sequencer) (frame : List UInt8) (hdr : Header)
    (first last nowNs : ℕ) :
    (s.applyFrame frame hdr first last nowNs).1.state = s.state ∨
      (s.applyFrame frame hdr first last nowNs).1.state = .contig ∨
      (s.applyFrame frame hdr first last nowNs).1.state = .gap := by
  unfold applyFrame
  split
  · unfold applyContiguous
    dsimp only
    split
    · left
      simp only [count]
      split <;> rfl
    · rw [retirePending_state]
      refine (advance_state _ last nowNs).imp (fun h => h.trans ?_) Or.inl
      simp only [count]
      split <;> rfl
  · unfold applyGap
    dsimp only [Traced.andThen]
    split
    · exact (s.gapEvidence_state first).imp id Or.inr
    · rw [retirePending_state]
      rcases checkGapClose_state (drainWindow (recordReach _ last) _ nowNs).1 _ with h | h
      · exact ((s.gapEvidence_state first).imp (fun hs => h.trans hs) fun hs => Or.inr (h.trans hs))
      · exact Or.inr (Or.inl h)

end Sequencer

end HftProj.Arbitrator
