import HftProj.Arbitrator.Sequencer

/-!
# Coherence of the watermark, the gap and the window

`Coherent` ties the staging window to the gap evidence: every run of staged
numbers starts at or below the evidence, so something staged means an open gap.
`Act` lists the ways a call changes a coherent state while the session stays the
same, up to telemetry, clocks and recovery intents, which `core` forgets.
-/

namespace HftProj.Arbitrator

open HftProj.Lib HftProj.Protocol HftProj.Protocol.Moldudp64 HftProj.Protocol.Packet

/-- Watermarks stay at or below this mark when every header's sequence number is
below `2 ^ 64 - 2 ^ 17`. -/
def seqLimit : ℕ := 2 ^ 64 - 2 ^ 16

namespace Sequencer

/-- The payloads staged for the sequence numbers above the watermark. -/
def held (s : Sequencer) : ℕ → Option (List UInt8) := s.window.held s.w

/-- The state without telemetry, clocks, recovery intents, the session template and the
staging high mark. -/
def core (s : Sequencer) : Sequencer :=
  { s with
    sessionLo := 0
    sessionHi := 0
    sessionLive := false
    progressVt := 0
    hbSeq := 0
    hbVt := 0
    pendingTo := none
    lastIntentVt := 0
    counters := { gapOpens := s.counters.gapOpens, reanchors := s.counters.reanchors }
    window := { s.window with maxStaged := 0 } }

structure Coherent (s : Sequencer) : Prop where
  mutation : s.mutation = .none
  sound : s.window.Sound
  ahead : ∀ q, s.held q ≠ none → s.w < q
  wBound : s.w ≤ seqLimit
  heldBound : ∀ q, s.held q ≠ none → q < seqLimit
  rooted : ∀ q, s.held q ≠ none → s.held (q - 1) ≠ none ∨ q ≤ s.evidenceHwm
  gapOpen : s.gapActive → s.w < s.evidenceHwm
  gapClosed : s.gapActive = false → s.evidenceHwm = 0
  calm : s.state = .init ∨ s.state = .contig → s.gapActive = false
  inGap : s.state = .gap → s.gapActive

theorem new_coherent : new.Coherent where
  mutation := rfl
  sound := Window.new_sound
  ahead q h := absurd (Window.new_sound.held_eq_none rfl 0 q) h
  wBound := Nat.zero_le _
  heldBound q h := absurd (Window.new_sound.held_eq_none rfl 0 q) h
  rooted q h := absurd (Window.new_sound.held_eq_none rfl 0 q) h
  gapOpen h := nomatch h
  gapClosed _ := rfl
  calm _ := rfl
  inGap h := nomatch h

section Core

variable {s t : Sequencer} (ht : t.core = s.core)
include ht

theorem w_of_core : t.w = s.w := (congrArg Sequencer.w ht : t.core.w = s.core.w)

theorem gen_of_core : t.gen = s.gen := (congrArg Sequencer.gen ht : t.core.gen = s.core.gen)

theorem session_of_core : t.session = s.session :=
  (congrArg Sequencer.session ht : t.core.session = s.core.session)

theorem state_of_core : t.state = s.state :=
  (congrArg Sequencer.state ht : t.core.state = s.core.state)

theorem gapActive_of_core : t.gapActive = s.gapActive :=
  (congrArg Sequencer.gapActive ht : t.core.gapActive = s.core.gapActive)

theorem evidenceHwm_of_core : t.evidenceHwm = s.evidenceHwm :=
  (congrArg Sequencer.evidenceHwm ht : t.core.evidenceHwm = s.core.evidenceHwm)

theorem mutation_of_core : t.mutation = s.mutation :=
  (congrArg Sequencer.mutation ht : t.core.mutation = s.core.mutation)

theorem gapOpens_of_core : t.counters.gapOpens = s.counters.gapOpens :=
  (congrArg (fun s => s.counters.gapOpens) ht :
    t.core.counters.gapOpens = s.core.counters.gapOpens)

theorem reanchors_of_core : t.counters.reanchors = s.counters.reanchors :=
  (congrArg (fun s => s.counters.reanchors) ht :
    t.core.counters.reanchors = s.core.counters.reanchors)

/-- The windows differ in the high mark only. -/
theorem window_of_core : t.window = { s.window with maxStaged := t.window.maxStaged } := by
  have h : ({ t.window with maxStaged := 0 } : Window) = { s.window with maxStaged := 0 } :=
    (congrArg Sequencer.window ht : t.core.window = s.core.window)
  calc t.window = { ({ t.window with maxStaged := 0 } : Window) with
        maxStaged := t.window.maxStaged } := rfl
    _ = { s.window with maxStaged := t.window.maxStaged } := by rw [h]

theorem held_of_core : t.held = s.held := by
  rw [held, window_of_core ht, w_of_core ht]
  rfl

theorem stagedCount_of_core : t.window.stagedCount = s.window.stagedCount := by
  rw [window_of_core ht]

theorem sound_of_core (h : s.window.Sound) : t.window.Sound := by
  rw [window_of_core ht]
  exact ⟨h.count, h.lens_le⟩

theorem Coherent.of_core (h : s.Coherent) : t.Coherent := by
  constructor
  · rw [mutation_of_core ht]; exact h.mutation
  · exact sound_of_core ht h.sound
  · rw [held_of_core ht, w_of_core ht]; exact h.ahead
  · rw [w_of_core ht]; exact h.wBound
  · rw [held_of_core ht]; exact h.heldBound
  · rw [held_of_core ht, evidenceHwm_of_core ht]; exact h.rooted
  · rw [gapActive_of_core ht, w_of_core ht, evidenceHwm_of_core ht]; exact h.gapOpen
  · rw [gapActive_of_core ht, evidenceHwm_of_core ht]; exact h.gapClosed
  · rw [state_of_core ht, gapActive_of_core ht]; exact h.calm
  · rw [state_of_core ht, gapActive_of_core ht]; exact h.inGap

end Core

section Buffer

variable {s : Sequencer} (h : s.Coherent)

/-- A coherent state is a reorder buffer with the watermark as its next number. -/
def Coherent.buffer : ReorderBuffer (List UInt8) WINDOW_SLOTS where
  next := s.w
  held := s.held
  ahead q hq := ⟨h.ahead q hq, (RingWindow.mem_of_view_ne_none hq).2⟩

@[simp] theorem Coherent.buffer_next : h.buffer.next = s.w := rfl

@[simp] theorem Coherent.buffer_held : h.buffer.held = s.held := rfl

theorem Coherent.buffer_rooted : h.buffer.Rooted s.evidenceHwm := h.rooted

include h in
/-- The slot of the watermark is empty. -/
theorem Coherent.held_w : s.held s.w = none := h.buffer.held_next

include h in
/-- What is staged keeps a gap open. -/
theorem Coherent.gapActive_of_held {q : ℕ} (hq : s.held q ≠ none) : s.gapActive = true := by
  have hlt := h.buffer_rooted.next_lt hq
  by_contra hgap
  rw [h.gapClosed (by simpa using hgap)] at hlt
  exact absurd hlt (Nat.not_lt_zero _)

include h in
theorem Coherent.staged_imp_gapActive (hc : 0 < s.window.stagedCount) :
    s.gapActive = true := by
  by_contra hgap
  have hnone : ∀ q, s.held q = none := by
    intro q
    by_contra hq
    exact hgap (h.gapActive_of_held hq)
  have := h.sound.count_eq_zero hnone
  omega

include h in
/-- Without a gap the window is empty. -/
theorem Coherent.stagedCount_eq_zero (hgap : s.gapActive = false) :
    s.window.stagedCount = 0 := by
  by_contra hne
  have := h.staged_imp_gapActive (Nat.pos_of_ne_zero hne)
  simp [hgap] at this

include h in
theorem Coherent.held_eq_none (hgap : s.gapActive = false) (q : ℕ) : s.held q = none :=
  h.sound.held_eq_none (h.stagedCount_eq_zero hgap) _ _

end Buffer

end Sequencer

end HftProj.Arbitrator
