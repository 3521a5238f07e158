import HftProj.Arbitrator.Overflow
import HftProj.Arbitrator.Visits
import HftProj.Protocol.Encode

/-!
# Arithmetic on sequence numbers

The additions and subtractions that a call makes on sequence numbers, read off beside the
functions that make them. They are exact as long as no accepted frame ends at the last
number there is and nothing is staged or requested beyond it.
-/

namespace HftProj.Arbitrator

open HftProj.Lib HftProj.Protocol HftProj.Protocol.Moldudp64 HftProj.Protocol.Packet

/-- An unsigned operation on 64-bit words. -/
inductive SeqOp where
  | add (a b : ℕ)
  | sub (a b : ℕ)

/-- The operation neither overflows nor underflows. -/
def SeqOp.Exact : SeqOp → Prop
  | .add a b => a + b < 2 ^ 64
  | .sub a b => b ≤ a

instance : DecidablePred SeqOp.Exact
  | .add a b => inferInstanceAs (Decidable (a + b < 2 ^ 64))
  | .sub a b => inferInstanceAs (Decidable (b ≤ a))

namespace Window

/-- The increments of `drain`. -/
@[grind =]
def drainOps : ℕ → Window → ℕ → List SeqOp
  | 0, _, _ => []
  | n + 1, win, wv =>
      let slot := wv &&& WINDOW_MASK
      if win.lens slot = 0 then []
      else .add wv 1 :: drainOps n { win.setLen slot 0 with stagedCount := n } (wrappingAdd wv 1)

/-- The length of the stretch that `clear_slots` empties. -/
def clearOps (win : Window) (oldW newW : ℕ) : List SeqOp :=
  let limit := min newW (saturatingAdd oldW WINDOW_SLOTS)
  if win.stagedCount = 0 ∨ limit ≤ oldW then [] else [.sub limit oldW]

/-- Nothing is drained at the last number if it is not held. -/
theorem drainOps_exact {n : ℕ} {win : Window} {w : ℕ} (hs : win.Sound)
    (hn : win.stagedCount = n) (hb : ∀ q, win.held w q ≠ none → q + 1 < 2 ^ 64) :
    ∀ op ∈ win.drainOps n w, op.Exact := by
  induction n generalizing win w with
  | zero => nofun
  | succ n ih =>
      rw [drainOps]
      simp only [and_mask]
      split
      · nofun
      · next hne =>
          have hheld : win.held w w ≠ none := by
            intro hnone
            exact hne (lens_eq_zero_of_held hnone)
          have hlt := hb w hheld
          have hmark := hs.unmark (slot_lt w) hne
          rw [hn, Nat.add_sub_cancel] at hmark
          intro op hop
          rcases List.mem_cons.mp hop with rfl | hrest
          · exact hlt
          · rw [wrappingAdd_of_lt hlt] at hrest
            exact ih hmark rfl (fun q hq => hb q (win.held_of_unmark hq)) op hrest

section Drained

variable {proof : LiveFeedProof} {win : Window} {w : ℕ} {r : Window × ℕ × List SinkCall}
  (hd : Drained proof win w r)
include hd

theorem Drained.lt (hw : w < 2 ^ 64) (hb : ∀ q, win.held w q ≠ none → q + 1 < 2 ^ 64) :
    r.2.1 < 2 ^ 64 := by
  rcases Nat.eq_or_lt_of_le hd.le with heq | hlt
  · exact heq ▸ hw
  · have hlast := hb (r.2.1 - 1) (hd.run _ (by omega) (by omega))
    omega

theorem Drained.ahead (hb : ∀ q, win.held w q ≠ none → q + 1 < 2 ^ 64) {q : ℕ}
    (hq : r.1.held r.2.1 q ≠ none) : r.2.1 < q ∧ q + 1 < 2 ^ 64 := by
  rw [hd.kept] at hq
  split at hq
  · next hle =>
      refine ⟨Nat.lt_of_le_of_ne hle fun heq => ?_, hb q hq⟩
      rw [← heq, hd.stop] at hq
      exact hq rfl
  · exact absurd rfl hq

end Drained

end Window

namespace Sequencer

/-- `Header::span`. -/
def spanOps (hdr : Header) : List SeqOp := [.sub hdr.count 1, .add hdr.seq (hdr.count - 1)]

/-- The numbers of the blocks past the first one. -/
def walkOps (hdr : Header) : List SeqOp :=
  (List.range (hdr.count - 1)).map fun i => .add (hdr.seq + i) 1

def advanceOps (s : Sequencer) (last : ℕ) : List SeqOp :=
  let newW := wrappingAdd last 1
  let win := (s.clearBehind newW 0).window
  .add last 1 ::
    ((if s.window.stagedCount ≠ 0 ∧ s.mutation ≠ .disableClearOnAdvance then
        s.window.clearOps s.w newW else []) ++
      win.drainOps win.stagedCount newW)

def applyContiguousOps (s : Sequencer) (frame : List UInt8) (hdr : Header) (last : ℕ) :
    List SeqOp :=
  .sub s.w hdr.seq :: (walkOps hdr ++
    if walkError frame hdr (min (wrappingSub s.w hdr.seq) hdr.count) = none then s.advanceOps last
    else [])

/-- The offset of a block below the clamp, taken by `stage_msg`. -/
def stageOps (w clamp : ℕ) (blocks : List (ℕ × List UInt8)) : List SeqOp :=
  blocks.flatMap fun b =>
    if b.1 < clamp then [.sub b.1 w, .sub (wrappingSub b.1 w) 1] else []

def applyGapOps (s : Sequencer) (frame : List UInt8) (hdr : Header) (last : ℕ) : List SeqOp :=
  let slots := if s.mutation = .offByOneClamp then WINDOW_SLOTS / 2 else WINDOW_SLOTS
  let clamp := wrappingAdd s.w slots
  let blocks := validPrefix (headerBlocks frame hdr)
  let win := (blocks.foldl (fun a b => stageBlock s.w clamp a b.1 b.2) (s.window, s.counters)).1
  .add s.w slots :: (walkOps hdr ++ stageOps s.w clamp blocks ++
    if walkError frame hdr 0 = none then
      .add s.w WINDOW_SLOTS ::
        ((if last ≥ wrappingAdd s.w WINDOW_SLOTS then [.add last 1] else []) ++
          win.drainOps win.stagedCount s.w)
    else [])

def applyOps (s : Sequencer) (frame : List UInt8) (hdr : Header) (last : ℕ) : List SeqOp :=
  if hdr.seq ≤ s.w then s.applyContiguousOps frame hdr last else s.applyGapOps frame hdr last

def dataOps (s : Sequencer) (frame : List UInt8) (hdr : Header) : List SeqOp :=
  if s.state = .ended then []
  else
    match hdr.span with
    | none => []
    | some (first, last) => spanOps hdr ++
        if s.state = .init then (s.anchorAt first 0).applyOps frame hdr last
        else if last < s.w then []
        else s.applyOps frame hdr last

/-- The operations of a call. -/
def stepOps (s : Sequencer) : Input → List SeqOp
  | .frame bytes feed _ =>
      match parseHeader bytes with
      | .error _ => []
      | .ok hdr =>
          if s.state = .dead then []
          else (((s.countPacket bytes feed).dispatchSession hdr.session).1).dataOps bytes hdr
  | .recoveryIntent nowNs =>
      (if s.window.maxStaged > s.w then [.sub s.window.maxStaged s.w] else []) ++
        if (s.intentTarget nowNs).isSome then [.add s.w MAX_WIRE_REQUEST] else []
  | .sealDead _ => []

/-! ## The condition -/

/-- The frame does not end at the last number if it is accepted, and if it is ahead of the
watermark then the window behind that ends below the last number. -/
def ApplySafe (s : Sequencer) (frame : List UInt8) (hdr : Header) (last : ℕ) : Prop :=
  (walkError frame hdr (s.w - hdr.seq) = none → last + 1 < 2 ^ 64) ∧
    (s.w < hdr.seq → s.w + WINDOW_SLOTS < 2 ^ 64)

def DataSafe (s : Sequencer) (frame : List UInt8) (hdr : Header) : Prop :=
  ∀ first last, hdr.span = some (first, last) → s.state ≠ .ended →
    (s.state = .init → (s.anchorAt first 0).ApplySafe frame hdr last) ∧
    (s.state ≠ .init → s.w ≤ last → s.ApplySafe frame hdr last)

/-- What a call has to stay clear of at the top of the sequence space. -/
def Safe (s : Sequencer) : Input → Prop
  | .frame bytes feed _ => ∀ hdr, parseHeader bytes = .ok hdr → s.state ≠ .dead →
      (((s.countPacket bytes feed).dispatchSession hdr.session).1).DataSafe bytes hdr
  | .recoveryIntent nowNs => (s.intentTarget nowNs).isSome → s.w + MAX_WIRE_REQUEST < 2 ^ 64
  | .sealDead _ => True

/-- The call's operations are exact, and its watermark does not fall behind the one before
unless the session changes or has not been anchored. -/
def StepExact (s : Sequencer) (i : Input) : Prop :=
  (∀ op ∈ s.stepOps i, op.Exact) ∧
    ((s.step i).2.any Output.isBoundary = false → s.state ≠ .init → s.w ≤ (s.step i).1.w)

instance (s : Sequencer) (i : Input) : Decidable (s.StepExact i) :=
  inferInstanceAs (Decidable ((∀ op ∈ s.stepOps i, op.Exact) ∧ _))

/-! ## States near the top -/

/-- The window holds nothing at the watermark or behind it, and not the last number. -/
structure Topped (s : Sequencer) : Prop where
  mutation : s.mutation = .none
  sound : s.window.Sound
  bound : s.w < 2 ^ 64
  ahead : ∀ q, s.held q ≠ none → s.w < q ∧ q + 1 < 2 ^ 64
  calm : s.state = .init → s.window.stagedCount = 0

theorem new_topped : new.Topped where
  mutation := rfl
  sound := Window.new_sound
  bound := Nat.two_pow_pos 64
  ahead q h := absurd (Window.new_sound.held_eq_none rfl 0 q) h
  calm _ := rfl

theorem Topped.of_core {s t : Sequencer} (ht : t.core = s.core) (h : s.Topped) : t.Topped := by
  constructor
  · rw [mutation_of_core ht]; exact h.mutation
  · exact sound_of_core ht h.sound
  · rw [w_of_core ht]; exact h.bound
  · rw [held_of_core ht, w_of_core ht]; exact h.ahead
  · rw [state_of_core ht, stagedCount_of_core ht]; exact h.calm

/-- A change of the state, the gap, the telemetry or the clocks. -/
theorem Topped.transfer {s t : Sequencer} (h : s.Topped) (hm : t.mutation = s.mutation)
    (hwin : t.window = s.window) (hw : t.w = s.w) (hstate : t.state = .init → s.state = .init) :
    t.Topped := by
  constructor
  · rw [hm]; exact h.mutation
  · rw [hwin]; exact h.sound
  · rw [hw]; exact h.bound
  · rw [held, hwin, hw]; exact h.ahead
  · rw [hwin]; exact fun hinit => h.calm (hstate hinit)

section Advance

variable {s : Sequencer} {last : ℕ}

theorem clearBehind_spec (h : s.Topped) (hlast : s.w ≤ last) (hlim : last + 1 < 2 ^ 64)
    (nowNs : ℕ) : (s.clearBehind (last + 1) nowNs).window.Sound ∧
      ∀ q, (s.clearBehind (last + 1) nowNs).window.held (last + 1) q =
        if last + 1 ≤ q then s.held q else none := by
  by_cases h0 : s.window.stagedCount = 0
  · have hwin : (s.clearBehind (last + 1) nowNs).window = s.window := by
      simp [clearBehind, h0]
    rw [hwin]
    refine ⟨h.sound, fun q => ?_⟩
    rw [h.sound.held_eq_none h0, held, h.sound.held_eq_none h0]
    split <;> rfl
  · have hwin : (s.clearBehind (last + 1) nowNs).window = s.window.clearSlots s.w (last + 1) :=
      if_pos ⟨h0, by rw [h.mutation]; simp⟩
    rw [hwin]
    exact Window.clearSlots_spec h.sound (Nat.lt_succ_of_le hlast) hlim

/-- An advance below the last number is exact and keeps what is staged below it. -/
theorem advance_topped (h : s.Topped) (hstate : s.state ≠ .init) (hlast : s.w ≤ last)
    (hlim : last + 1 < 2 ^ 64) (nowNs : ℕ) :
    (∀ op ∈ s.advanceOps last, op.Exact) ∧ (s.advance last nowNs).1.Topped ∧
      s.w ≤ (s.advance last nowNs).1.w := by
  have hwrap : wrappingAdd last 1 = last + 1 := wrappingAdd_of_lt hlim
  obtain ⟨hsound, hheld⟩ := clearBehind_spec h hlast hlim nowNs
  have hb : ∀ q, (s.clearBehind (last + 1) nowNs).window.held (last + 1) q ≠ none →
      q + 1 < 2 ^ 64 := by
    intro q hq
    rw [hheld] at hq
    split at hq
    · exact (h.ahead q hq).2
    · exact absurd rfl hq
  have hd := @Window.drain_spec _ _ s.gen hsound hb
  constructor
  · intro op hop
    simp only [advanceOps, hwrap, List.mem_cons, List.mem_append] at hop
    rcases hop with rfl | hclear | hdrain
    · exact hlim
    · split at hclear
      · rw [Window.clearOps] at hclear
        split at hclear
        · cases hclear
        · next hlimit =>
            rw [List.mem_singleton.mp hclear]
            exact Nat.le_of_not_le fun hle => hlimit (Or.inr hle)
      · cases hclear
    · exact Window.drainOps_exact hsound rfl hb op hdrain
  · rw [advance_eq, hwrap, Traced.andThen_fst]
    generalize hc : s.clearBehind (last + 1) nowNs = c at hd hb hheld hsound
    have hcw : c.w = last + 1 := by rw [← hc]; rfl
    have hcm : c.mutation = s.mutation := by rw [← hc]; rfl
    have hcs : c.state = s.state := by rw [← hc]; rfl
    have hle := hd.le
    have htop : (c.drainWindow s.gen nowNs).1.Topped := by
      constructor
      · exact hcm.trans h.mutation
      · show (c.window.drain c.w s.gen).1.Sound
        rw [hcw]
        exact hd.sound
      · show (c.window.drain c.w s.gen).2.1 < 2 ^ 64
        rw [hcw]
        exact hd.lt hlim hb
      · intro q hq
        have hq' : (c.window.drain c.w s.gen).1.held (c.window.drain c.w s.gen).2.1 q ≠ none := hq
        show (c.window.drain c.w s.gen).2.1 < q ∧ _
        rw [hcw] at hq' ⊢
        exact hd.ahead hb hq'
      · exact fun hinit => absurd (hcs.symm.trans hinit) hstate
    refine ⟨htop.transfer ?_ (checkGapClose_window _ _).1 (checkGapClose_w _ _) ?_, ?_⟩
    · unfold checkGapClose
      split <;> rfl
    · intro hinit
      rcases checkGapClose_state (c.drainWindow s.gen nowNs).1 s.gen with hsame | hcontig
      · exact hsame.symm.trans hinit
      · rw [hcontig] at hinit
        cases hinit
    · rw [checkGapClose_w]
      show s.w ≤ (c.window.drain c.w s.gen).2.1
      rw [hcw]
      omega

end Advance

section Frame

variable {s : Sequencer} {frame : List UInt8} {hdr : Header} {first last : ℕ}

theorem walkOps_exact (hspan : hdr.span = some (first, last)) :
    ∀ op ∈ walkOps hdr, op.Exact := by
  obtain ⟨_, hlast, hlim, _⟩ := Header.span_eq_some hspan
  intro op hop
  obtain ⟨i, hi, rfl⟩ := List.mem_map.mp hop
  have hlt := List.mem_range.mp hi
  show hdr.seq + i + 1 < 2 ^ 64
  omega

theorem spanOps_exact (hspan : hdr.span = some (first, last)) :
    ∀ op ∈ spanOps hdr, op.Exact := by
  obtain ⟨_, hlast, hlim, hpos, _⟩ := Header.span_eq_some hspan
  intro op hop
  rcases List.mem_cons.mp hop with rfl | hadd
  · show 1 ≤ hdr.count
    omega
  · rw [List.mem_singleton.mp hadd]
    show hdr.seq + (hdr.count - 1) < 2 ^ 64
    omega

/-- The operations are exact under the condition, and so is what the frame leaves. -/
structure Exactly (s t : Sequencer) (ops : List SeqOp) (safe : Prop) : Prop where
  iff : (∀ op ∈ ops, op.Exact) ↔ safe
  topped : safe → t.Topped
  mono : safe → s.w ≤ t.w

theorem applyContiguous_exactly (h : s.Topped) (hstate : s.state ≠ .init)
    (hhdr : parseHeader frame = .ok hdr) (hspan : hdr.span = some (first, last))
    (hle : hdr.seq ≤ s.w) (hlast : s.w ≤ last) (nowNs : ℕ) :
    Exactly s (s.applyContiguous frame hdr hdr.seq last nowNs).1
      (s.applyContiguousOps frame hdr last)
      (walkError frame hdr (s.w - hdr.seq) = none → last + 1 < 2 ^ 64) := by
  obtain ⟨_, hend, hlim, hpos, _⟩ := Header.span_eq_some hspan
  have hskip : min (wrappingSub s.w hdr.seq) hdr.count = s.w - hdr.seq := by
    rw [wrappingSub_of_le hle h.bound]
    omega
  have hnext : ∀ f, (s.count f).Topped := fun f => h.transfer rfl rfl rfl id
  have hres (safe : walkError frame hdr (s.w - hdr.seq) = none → last + 1 < 2 ^ 64) :
      (s.applyContiguous frame hdr hdr.seq last nowNs).1.Topped ∧
        s.w ≤ (s.applyContiguous frame hdr hdr.seq last nowNs).1.w := by
    rw [applyContiguous_walk s hhdr, hskip]
    dsimp only
    split
    · exact ⟨h.transfer rfl rfl rfl id, Nat.le_refl _⟩
    · next hok =>
        obtain ⟨_, htop, hmono⟩ := advance_topped (hnext _) hstate hlast (safe hok) nowNs
        refine ⟨htop.of_core (retirePending_core _), ?_⟩
        rw [retirePending_w]
        exact hmono
  refine ⟨?_, fun safe => (hres safe).1, fun safe => (hres safe).2⟩
  rw [applyContiguousOps, hskip]
  constructor
  · intro hops hok
    refine hops (.add last 1) ?_
    rw [if_pos hok]
    exact List.mem_cons_of_mem _ (List.mem_append_right _ List.mem_cons_self)
  · intro safe op hop
    rcases List.mem_cons.mp hop with rfl | hop
    · exact hle
    rcases List.mem_append.mp hop with hwalk | hadv
    · exact walkOps_exact hspan op hwalk
    · split at hadv
      · next hok => exact (advance_topped h hstate hlast (safe hok) nowNs).1 op hadv
      · cases hadv

theorem stageOps_exact {w clamp : ℕ} {blocks : List (ℕ × List UInt8)}
    (hb : ∀ b ∈ blocks, w < b.1 ∧ b.1 < 2 ^ 64) : ∀ op ∈ stageOps w clamp blocks, op.Exact := by
  intro op hop
  obtain ⟨b, hmem, hop⟩ := List.mem_flatMap.mp hop
  obtain ⟨hlt, hlim⟩ := hb b hmem
  split at hop
  · rcases List.mem_cons.mp hop with rfl | hsub
    · exact Nat.le_of_lt hlt
    · rw [List.mem_singleton.mp hsub, wrappingSub_of_le (Nat.le_of_lt hlt) hlim]
      show 1 ≤ b.1 - w
      omega
  · cases hop

theorem applyGap_exactly (h : s.Topped) (hstate : s.state ≠ .init)
    (hhdr : parseHeader frame = .ok hdr) (hspan : hdr.span = some (first, last))
    (hgt : s.w < hdr.seq) (nowNs : ℕ) :
    Exactly s (s.applyGap frame hdr hdr.seq last nowNs).1 (s.applyGapOps frame hdr last)
      ((walkError frame hdr 0 = none → last + 1 < 2 ^ 64) ∧ s.w + WINDOW_SLOTS < 2 ^ 64) := by
  obtain ⟨_, hend, hlim, hpos, _⟩ := Header.span_eq_some hspan
  obtain ⟨hwin, hw, hmut⟩ := s.gapEvidence_window hdr.seq
  have hslots : (if s.mutation = .offByOneClamp then WINDOW_SLOTS / 2 else WINDOW_SLOTS) =
      WINDOW_SLOTS := if_neg (by rw [h.mutation]; nofun)
  have hblocks : ∀ b ∈ validPrefix (headerBlocks frame hdr),
      s.w < b.1 ∧ b.1 < 2 ^ 64 ∧ b.2.length ≤ 64 := by
    intro b hb
    obtain ⟨hmem, hvalid⟩ := validate_of_mem_validPrefix hb
    rw [headerBlocks_eq (by omega)] at hmem
    have hin := mem_number_bounds (p := b.1) (x := b.2) hmem
    have hlen := splitBlocks_length_le hdr.count (frame.drop HEADER_LEN)
    have hfit := Itch5.validate_length hvalid
    omega
  set b : ReorderBuffer (List UInt8) WINDOW_SLOTS :=
    ⟨s.w, s.held, fun q hq => ⟨(h.ahead q hq).1, (RingWindow.mem_of_view_ne_none hq).2⟩⟩ with hbuf
  have hstage (c : Counters) := foldl_stageBlock (b := b) (c := c) h.sound rfl hblocks
  -- What the walk leaves in the window.
  have hstaged (c : Counters) (hsafe : s.w + WINDOW_SLOTS < 2 ^ 64) :
      ∀ q, ((validPrefix (headerBlocks frame hdr)).foldl
        (fun a b => stageBlock s.w (s.w + WINDOW_SLOTS) a b.1 b.2) (s.window, c)).1.held s.w q ≠
          none → s.w < q ∧ q + 1 < 2 ^ 64 := by
    intro q hq
    have hheld := (hstage c).held
    have hin := ((b.holdAll (validPrefix (headerBlocks frame hdr))).ahead q (hheld ▸ hq))
    rw [ReorderBuffer.holdAll_next] at hin
    have hlt : s.w < q ∧ q < s.w + WINDOW_SLOTS := hin
    omega
  have hres (hok : walkError frame hdr 0 = none → last + 1 < 2 ^ 64)
      (hsafe : s.w + WINDOW_SLOTS < 2 ^ 64) :
      (s.applyGap frame hdr hdr.seq last nowNs).1.Topped ∧
        s.w ≤ (s.applyGap frame hdr hdr.seq last nowNs).1.w := by
    obtain ⟨_, hhwm⟩ := gapEvidence_open hgt
    have hstate' : (s.gapEvidence hdr.seq).1.state ≠ .init := by
      rcases s.gapEvidence_state hdr.seq with hsame | hgap
      · rwa [hsame]
      · rw [hgap]
        nofun
    rw [applyGap_walk s hhdr, Traced.andThen_fst]
    generalize (s.gapEvidence hdr.seq).1 = t at hwin hw hmut hhwm hstate'
    have hclamp : (if t.mutation = .offByOneClamp then wrappingAdd t.w (WINDOW_SLOTS / 2)
        else wrappingAdd t.w WINDOW_SLOTS) = t.w + WINDOW_SLOTS := by
      rw [if_neg (by rw [hmut, h.mutation]; nofun), wrappingAdd_of_lt (hw ▸ hsafe)]
    have hsound : ((validPrefix (headerBlocks frame hdr)).foldl (fun a b =>
        stageBlock s.w (s.w + WINDOW_SLOTS) a b.1 b.2) (s.window, t.counters)).1.Sound :=
      (hstage t.counters).sound
    have hheld := hstaged t.counters hsafe
    rw [← hw] at hheld hsound
    rw [hclamp, hwin]
    dsimp only
    generalize (validPrefix (headerBlocks frame hdr)).foldl
      (fun a b => stageBlock t.w (t.w + WINDOW_SLOTS) a b.1 b.2) (s.window, t.counters) = staged
      at hheld hsound
    have htop : ∀ c : Counters, ({ t with window := staged.1, counters := c }).Topped := fun c =>
      ⟨hmut.trans h.mutation, hsound, hw ▸ h.bound, hheld, fun hinit => absurd hinit hstate'⟩
    split
    · exact ⟨(htop staged.2).transfer rfl rfl rfl id, hw.ge⟩
    · obtain ⟨hrw, hrheld, -, hrhwm⟩ := recordReach_eq
        { t with window := staged.1, counters := staged.2 } last
      have hnone : ({ t with window := staged.1, counters := staged.2 } : Sequencer).held t.w =
          none := by
        by_contra hsome
        exact Nat.lt_irrefl _ ((htop staged.2).ahead _ hsome).1
      rw [settle_eq (by rw [hrheld, hrw]; exact hnone)
        (by rw [hrw]; exact lt_of_lt_of_le (hw ▸ Nat.lt_of_lt_of_le hgt hhwm) hrhwm),
        retirePending_w]
      refine ⟨Topped.of_core (retirePending_core _) ?_, hw.ge⟩
      exact ⟨(htop staged.2).mutation, ⟨hsound.count, hsound.lens_le⟩, (htop staged.2).bound,
        by rw [hrheld]; exact (htop staged.2).ahead, fun hinit => absurd hinit hstate'⟩
  refine ⟨?_, fun hsafe => (hres hsafe.1 hsafe.2).1, fun hsafe => (hres hsafe.1 hsafe.2).2⟩
  rw [applyGapOps, hslots]
  constructor
  · intro hops
    have hsafe : s.w + WINDOW_SLOTS < 2 ^ 64 := hops (.add s.w WINDOW_SLOTS) List.mem_cons_self
    refine ⟨fun hok => ?_, hsafe⟩
    by_contra hover
    refine hover (hops (.add last 1) (List.mem_cons_of_mem _ (List.mem_append_right _ ?_)))
    rw [if_pos hok, wrappingAdd_of_lt hsafe, if_pos (by omega)]
    exact List.mem_cons_of_mem _ (List.mem_append_left _ (List.mem_singleton.mpr rfl))
  · rintro ⟨hok, hsafe⟩ op hop
    rw [wrappingAdd_of_lt hsafe] at hop
    rcases List.mem_cons.mp hop with rfl | hop
    · exact hsafe
    rcases List.mem_append.mp hop with hop | hop
    · rcases List.mem_append.mp hop with hwalk | hoff
      · exact walkOps_exact hspan op hwalk
      · exact stageOps_exact (fun b hb => ⟨(hblocks b hb).1, (hblocks b hb).2.1⟩) op hoff
    split at hop
    · next haccept =>
        rcases List.mem_cons.mp hop with rfl | hop
        · exact hsafe
        rcases List.mem_append.mp hop with hlast | hdrain
        · split at hlast
          · rw [List.mem_singleton.mp hlast]
            exact hok haccept
          · cases hlast
        · exact Window.drainOps_exact (hstage s.counters).sound rfl
            (fun q hq => (hstaged s.counters hsafe q hq).2) op hdrain
    · cases hop

/-- A data frame ahead of its duplicates. -/
theorem apply_exactly (h : s.Topped) (hstate : s.state ≠ .init)
    (hhdr : parseHeader frame = .ok hdr) (hspan : hdr.span = some (first, last))
    (hlast : s.w ≤ last) (nowNs : ℕ) :
    Exactly s (s.applyFrame frame hdr hdr.seq last nowNs).1 (s.applyOps frame hdr last)
      (s.ApplySafe frame hdr last) := by
  unfold applyFrame applyOps ApplySafe
  split
  · next hle =>
      have hgap : ¬ s.w < hdr.seq := Nat.not_lt_of_le hle
      obtain ⟨hiff, htop, hmono⟩ := applyContiguous_exactly h hstate hhdr hspan hle hlast nowNs
      exact ⟨hiff.trans ⟨fun hs => ⟨hs, fun hlt => absurd hlt hgap⟩, And.left⟩,
        fun hs => htop hs.1, fun hs => hmono hs.1⟩
  · next hgt =>
      have hlt := Nat.lt_of_not_le hgt
      obtain ⟨hiff, htop, hmono⟩ := applyGap_exactly h hstate hhdr hspan hlt nowNs
      have hskip : s.w - hdr.seq = 0 := by omega
      rw [hskip]
      exact ⟨hiff.trans ⟨fun hs => ⟨hs.1, fun _ => hs.2⟩, fun hs => ⟨hs.1, hs.2 hlt⟩⟩,
        fun hs => htop ⟨hs.1, hs.2 hlt⟩, fun hs => hmono ⟨hs.1, hs.2 hlt⟩⟩

/-- What is asked of a call on data or on a control packet. -/
structure Kept (s : Sequencer) (ops : List SeqOp) (safe : Prop) (t : Sequencer) : Prop where
  iff : (∀ op ∈ ops, op.Exact) ↔ safe
  topped : safe → t.Topped
  mono : safe → s.state ≠ .init → s.w ≤ t.w

theorem Kept.of_none {t : Sequencer} {safe : Prop} (hsafe : safe) (htop : t.Topped)
    (hw : t.w = s.w) : Kept s [] safe t :=
  ⟨⟨fun _ => hsafe, nofun⟩, fun _ => htop, fun _ _ => hw.ge⟩

theorem ingestData_kept (h : s.Topped) (hhdr : parseHeader frame = .ok hdr) (feed : FeedId)
    (nowNs : ℕ) : Kept s (s.dataOps frame hdr) (s.DataSafe frame hdr)
      (s.ingestData frame hdr feed nowNs).1 := by
  unfold ingestData dataOps
  split
  · next hended =>
      exact .of_none (fun _ _ _ hne => absurd hended hne) (h.transfer rfl rfl rfl id) rfl
  next hne =>
  cases hspan : hdr.span with
  | none =>
      refine .of_none (fun _ _ hsome => ?_) (h.transfer rfl rfl rfl id) rfl
      rw [hspan] at hsome
      cases hsome
  | some span =>
      obtain ⟨first, last⟩ := span
      obtain ⟨rfl, hend, hlim, _⟩ := Header.span_eq_some hspan
      have hops : ∀ ops : List SeqOp, (∀ op ∈ spanOps hdr ++ ops, op.Exact) ↔
          ∀ op ∈ ops, op.Exact := fun ops =>
        ⟨fun hall op hop => hall op (List.mem_append_right _ hop), fun hall op hop =>
          (List.mem_append.mp hop).elim (spanOps_exact hspan op) (hall op)⟩
      dsimp only
      split
      · next hinit =>
          have hanchor : (s.anchorAt hdr.seq nowNs).Topped :=
            ⟨h.mutation, h.sound, Nat.lt_of_le_of_lt (show hdr.seq ≤ last by omega) hlim,
              fun q hq => absurd (h.sound.held_eq_none (h.calm hinit) _ q) hq, nofun⟩
          obtain ⟨hiff, htop, _⟩ := apply_exactly hanchor nofun hhdr hspan
            (show hdr.seq ≤ last by omega) nowNs
          have hsafe : s.DataSafe frame hdr ↔ (s.anchorAt hdr.seq 0).ApplySafe frame hdr last := by
            constructor
            · exact fun hs => (hs _ _ hspan hne).1 hinit
            · intro hs first' last' hspan' _
              obtain ⟨rfl, rfl⟩ := Prod.mk.inj (Option.some_inj.mp (hspan.symm.trans hspan'))
              exact ⟨fun _ => hs, fun hno => absurd hinit hno⟩
          exact ⟨(hops _).trans (hiff.trans hsafe.symm), fun hs => htop (hsafe.mp hs),
            fun _ hno => absurd hinit hno⟩
      · next hlive =>
          have hsafe : s.DataSafe frame hdr ↔ (s.w ≤ last → s.ApplySafe frame hdr last) := by
            constructor
            · exact fun hs => (hs _ _ hspan hne).2 hlive
            · intro hs first' last' hspan' _
              obtain ⟨rfl, rfl⟩ := Prod.mk.inj (Option.some_inj.mp (hspan.symm.trans hspan'))
              exact ⟨fun hinit => absurd hinit hlive, fun _ => hs⟩
          split
          · next hdup =>
              refine ⟨(hops _).trans ⟨fun _ => hsafe.mpr fun hle => by omega, nofun⟩,
                fun _ => h.transfer rfl rfl rfl id, fun _ _ => Nat.le_refl _⟩
          · next hnew =>
              have hle := Nat.le_of_not_lt hnew
              obtain ⟨hiff, htop, hmono⟩ := apply_exactly h hlive hhdr hspan hle nowNs
              have hsafe' := hsafe.trans ⟨fun hs => hs hle, fun hs _ => hs⟩
              exact ⟨(hops _).trans (hiff.trans hsafe'.symm), fun hs => htop (hsafe'.mp hs),
                fun hs _ => hmono (hsafe'.mp hs)⟩

theorem handleHeartbeat_topped (h : s.Topped) (seq nowNs : ℕ) :
    (s.handleHeartbeat seq nowNs).1.Topped := by
  unfold handleHeartbeat
  dsimp only [count]
  split_ifs
  · exact h.transfer rfl rfl rfl id
  · exact h.transfer rfl rfl rfl id
  · exact h.transfer rfl rfl rfl id
  · obtain ⟨hwin, hw, hmut⟩ := gapEvidence_window
      { s with counters := { s.counters with heartbeats := s.counters.heartbeats + 1 },
               hbSeq := seq, hbVt := nowNs } seq
    refine h.transfer hmut hwin hw fun hinit => ?_
    rcases gapEvidence_state
      { s with counters := { s.counters with heartbeats := s.counters.heartbeats + 1 },
               hbSeq := seq, hbVt := nowNs } seq with hsame | hgap
    · exact hsame.symm.trans hinit
    · rw [hgap] at hinit
      cases hinit
  · exact h.transfer rfl rfl rfl id

theorem handleEos_topped (h : s.Topped) (hdr : Header) : (s.handleEos hdr).1.Topped := by
  unfold handleEos
  dsimp only [count]
  split_ifs <;> first
    | exact h
    | exact h.transfer rfl rfl rfl id
    | exact h.transfer rfl rfl rfl nofun

theorem ingestKind_kept (h : s.Topped) (hhdr : parseHeader frame = .ok hdr) (feed : FeedId)
    (nowNs : ℕ) : Kept s (s.dataOps frame hdr) (s.DataSafe frame hdr)
      (s.ingestKind frame hdr feed nowNs).1 := by
  have hcontrol (hc : hdr.count = HEARTBEAT_COUNT ∨ hdr.count = EOS_COUNT) :
      s.dataOps frame hdr = [] ∧ s.DataSafe frame hdr := by
    have hspan : hdr.span = none := if_pos hc
    constructor
    · unfold dataOps
      rw [hspan]
      split <;> rfl
    · intro first last hsome
      rw [hspan] at hsome
      cases hsome
  unfold ingestKind
  split
  · next hc =>
      rw [(hcontrol (Or.inl hc)).1]
      exact .of_none (hcontrol (Or.inl hc)).2 (handleHeartbeat_topped h _ _) (handleHeartbeat_w s _ _)
  split
  · next hc =>
      rw [(hcontrol (Or.inr hc)).1, if_neg (by rw [h.mutation]; nofun)]
      exact .of_none (hcontrol (Or.inr hc)).2 (handleEos_topped h _) (handleEos_w s _)
  · exact ingestData_kept h hhdr feed nowNs

end Frame

/-! ## Runs -/

theorem dispatchSession_topped {s : Sequencer} (h : s.Topped) (next : SessionId) :
    (s.dispatchSession next).1.Topped ∧
      ((s.dispatchSession next).2.any SinkCall.isBoundary = false →
        (s.dispatchSession next).1.state = s.state) := by
  have hd := s.dispatchSession_dispatched next
  generalize s.dispatchSession next = r at hd
  obtain ⟨t, calls⟩ := r
  cases hd with
  | same _ ht => exact ⟨h.of_core ht, fun _ => state_of_core ht⟩
  | adopt _ ht =>
      exact ⟨Topped.of_core ht (h.transfer rfl rfl rfl id), fun _ => (state_of_core ht :)⟩
  | boundary _ _ ht =>
      obtain ⟨hsound, hempty⟩ := crossTo_flush h.sound next
      refine ⟨Topped.of_core ht ⟨h.mutation, hsound, h.bound, fun q hq => ?_, fun _ => hempty⟩,
        fun hany => ?_⟩
      · exact absurd (hsound.held_eq_none hempty _ q) hq
      · simp [SinkCall.isBoundary] at hany

/-- In a state of a run so far exact, a call is exact if and only if it is safe. -/
theorem step_exact_iff {s : Sequencer} (h : s.Topped) (i : Input) :
    (s.StepExact i ↔ s.Safe i) ∧ (s.Safe i → (s.step i).1.Topped) := by
  cases i with
  | sealDead reason =>
      have hres : (s.sealDead reason).1.Topped := by
        unfold sealDead
        split
        · exact h.transfer rfl rfl rfl fun hinit => by cases hinit
        · exact h
      exact ⟨⟨fun _ => trivial, fun _ => ⟨fun _ hop => (by cases hop),
        fun _ _ => (s.sealDead_w reason).ge⟩⟩, fun _ => hres⟩
  | recoveryIntent nowNs =>
      refine ⟨⟨fun hex hsome => ?_, fun hsafe => ⟨fun op hop => ?_, fun _ _ => ?_⟩⟩, fun _ => ?_⟩
      · refine hex.1 (.add s.w MAX_WIRE_REQUEST) (List.mem_append_right _ ?_)
        rw [if_pos hsome]
        exact List.mem_singleton.mpr rfl
      · rcases List.mem_append.mp hop with hsub | hadd
        · split at hsub
          · next hgt =>
              rw [List.mem_singleton.mp hsub]
              exact Nat.le_of_lt hgt
          · cases hsub
        · split at hadd
          · next hsome =>
              rw [List.mem_singleton.mp hadd]
              exact hsafe hsome
          · cases hadd
      · exact (s.checkRecoveryIntent_w nowNs).ge
      · exact h.of_core (s.checkRecoveryIntent_core nowNs)
  | frame bytes feed nowNs =>
      have hcount : (s.countPacket bytes feed).Topped := h.of_core (s.countPacket_core bytes feed)
      unfold StepExact Safe stepOps
      simp only [step, ingest]
      by_cases hlen : bytes.length < HEADER_LEN
      · have herr : parseHeader bytes = .error (.truncated HEADER_LEN bytes.length) := dif_pos hlen
        rw [herr, if_pos hlen]
        exact ⟨⟨fun _ _ hok => (by cases hok), fun _ => ⟨fun _ hop => (by cases hop),
          fun _ _ => Nat.le_refl _⟩⟩,
          fun _ => hcount.transfer rfl rfl rfl id⟩
      rw [if_neg hlen]
      cases hhdr : parseHeader bytes with
      | error e =>
          exact ⟨⟨fun _ _ hok => (by cases hok), fun _ => ⟨fun _ hop => (by cases hop),
          fun _ _ => Nat.le_refl _⟩⟩,
            fun _ => hcount.transfer rfl rfl rfl id⟩
      | ok hdr =>
          by_cases hdead : s.state = .dead
          · have hdead' : (s.countPacket bytes feed).state = .dead := hdead
            simp only [if_pos hdead, if_pos hdead']
            exact ⟨⟨fun _ _ _ hlive => absurd hdead hlive, fun _ =>
              ⟨fun _ hop => (by cases hop), fun _ _ => Nat.le_refl _⟩⟩, fun _ => hcount.transfer rfl rfl rfl id⟩
          · have hdead' : (s.countPacket bytes feed).state ≠ .dead := hdead
            simp only [if_neg hdead, if_neg hdead', Traced.andThen_fst, Traced.andThen_snd]
            obtain ⟨htop, hstate⟩ := dispatchSession_topped hcount hdr.session
            have hw := (s.countPacket bytes feed).dispatchSession_w hdr.session
            have hsafe : (∀ hdr', Except.ok hdr = (Except.ok hdr' : Except FrameError Header) →
                s.state ≠ .dead → (((s.countPacket bytes feed).dispatchSession
                  hdr'.session).1).DataSafe bytes hdr') ↔
                (((s.countPacket bytes feed).dispatchSession hdr.session).1).DataSafe bytes hdr := by
              constructor
              · exact fun hs => hs hdr rfl hdead
              · intro hs hdr' heq _
                obtain rfl := Except.ok.inj heq
                exact hs
            rw [hsafe]
            generalize (s.countPacket bytes feed).dispatchSession hdr.session = r
              at htop hstate hw
            obtain ⟨hiff, hkeep, hmono⟩ := ingestKind_kept htop hhdr feed nowNs
            refine ⟨⟨fun hex => hiff.mp hex.1, fun hs => ⟨hiff.mpr hs, fun hany hinit => ?_⟩⟩, hkeep⟩
            have hcalls : r.2.any SinkCall.isBoundary = false := by
              rw [List.map_append, List.any_append, Bool.or_eq_false_iff, List.any_map] at hany
              exact hany.1
            have hinit' : r.1.state ≠ .init := by
              rw [hstate hcalls]
              exact hinit
            exact hw.ge.trans (hmono hs hinit')

/-- A data frame whose span overflows is counted and changes nothing else behind the session
dispatch. -/
theorem ingest_overflow (s : Sequencer) {frame : List UInt8} {hdr : Header}
    (hhdr : parseHeader frame = .ok hdr) (hlive : s.state ≠ .dead)
    (hdata : hdr.count ≠ HEARTBEAT_COUNT ∧ hdr.count ≠ EOS_COUNT)
    (hover : 2 ^ 64 ≤ hdr.seq + (hdr.count - 1)) (feed : FeedId) (nowNs : ℕ) :
    let r := (s.countPacket frame feed).dispatchSession hdr.session
    ∃ f, s.ingest frame feed nowNs = (r.1.count f, r.2) := by
  have hspan : hdr.span = none := by
    rw [Header.span, if_neg (not_or.mpr hdata), checkedAdd, if_neg (Nat.not_lt_of_le hover)]
    rfl
  have hlive' : (s.countPacket frame feed).state ≠ .dead := hlive
  intro r
  simp only [ingest, if_neg (Nat.not_lt_of_le (parseHeader_ok hhdr).1), hhdr, if_neg hlive']
  simp only [Traced.andThen, ingestKind, if_neg hdata.1, if_neg hdata.2, ingestData, hspan]
  split
  · exact ⟨_, Prod.ext rfl (List.append_nil _)⟩
  · exact ⟨_, Prod.ext rfl (List.append_nil _)⟩

/-- Two messages that end at the last number there is. -/
def topRun : List Input :=
  [.frame (makeFrame (SessionId.repeated 65) (2 ^ 64 - 2) 1) 0 10,
    .frame (makeFrame (SessionId.repeated 65) (2 ^ 64 - 1) 1) 0 20]

end Sequencer

end HftProj.Arbitrator
