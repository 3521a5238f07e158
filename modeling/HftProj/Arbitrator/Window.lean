import HftProj.Arbitrator.Types
import HftProj.Lib.Machine
import HftProj.Lib.RingWindow
import Mathlib.Data.Finset.Card

/-!
# Staging window

1024 presence bytes and a 64 KiB arena of 64-byte slots, indexed by sequence
number modulo 1024. A presence byte is the stored length plus one. `Window.held`
reads the window as the payloads held for the sequence numbers from a watermark on.
-/

namespace HftProj.Arbitrator

open HftProj.Lib

def WINDOW_SLOTS : ℕ := 1024
def ARENA_SIZE : ℕ := 64 * 1024
def SLOT_SIZE : ℕ := 64
def WINDOW_MASK : ℕ := WINDOW_SLOTS - 1

/-- The fields of the sequencer that the window operations borrow. `lens` is read
below `WINDOW_SLOTS` and `arena` below `ARENA_SIZE`. -/
structure Window where
  lens : ℕ → ℕ
  arena : ℕ → UInt8
  stagedCount : ℕ
  maxStaged : ℕ

namespace Window

def new : Window := ⟨fun _ => 0, fun _ => 0, 0, 0⟩

/-- `lens[slot] = x` -/
def setLen (win : Window) (slot x : ℕ) : Window :=
  { win with lens := Function.update win.lens slot x }

/-- `arena[start..start + data.len()].copy_from_slice(data)` -/
def copyFromSlice (win : Window) (start : ℕ) (data : List UInt8) : Window :=
  { win with arena := fun k =>
      if start ≤ k ∧ k < start + data.length then data.getD (k - start) 0 else win.arena k }

/-- `&arena[start..start + len]` -/
def arenaSlice (win : Window) (start len : ℕ) : List UInt8 :=
  (List.range len).map fun j => win.arena (start + j)

/-- Stage one payload; `false` when `seq` is behind the watermark or beyond the window. -/
def stageMsg (win : Window) (w seq : ℕ) (data : List UInt8) : Window × Bool :=
  let off := wrappingSub seq w
  if wrappingSub off 1 < WINDOW_SLOTS then
    let slot := seq &&& WINDOW_MASK
    let win := if win.lens slot = 0 then { win with stagedCount := win.stagedCount + 1 } else win
    let len := min data.length SLOT_SIZE
    let win := win.setLen slot (len + 1)
    let start := slot <<< 6
    (if len > 0 then win.copyFromSlice start (data.take len) else win, true)
  else (win, false)

/-- One linear chunk of the clearing walk; `true` when the window ran empty, which
ends the walk early. -/
@[grind =]
def clearCells : List ℕ → Window → Window × Bool
  | [], win => (win, false)
  | cell :: cells, win =>
      if win.lens cell ≠ 0 then
        let win := { win.setLen cell 0 with stagedCount := win.stagedCount - 1 }
        if win.stagedCount = 0 then ({ win with maxStaged := 0 }, true)
        else clearCells cells win
      else clearCells cells win

/-- Clear-on-advance: empty the slots of `[oldW, min (newW, oldW + 1024))`. -/
def clearSlots (win : Window) (oldW newW : ℕ) : Window :=
  if win.stagedCount = 0 then win
  else
    let limit := min newW (saturatingAdd oldW WINDOW_SLOTS)
    if limit ≤ oldW then win
    else
      let n := limit - oldW
      let start := oldW &&& WINDOW_MASK
      let firstN := min (WINDOW_SLOTS - start) n
      let chunk := clearCells (List.range' start firstN) win
      if chunk.2 then chunk.1
      else (clearCells (List.range (n - firstN)) chunk.1).1

/-- The loop of `drain` with `n` slots still staged: it stops at the first empty slot
or when nothing is staged any more. Returns the window, the watermark and the calls. -/
@[grind =]
def drainLoop (proof : LiveFeedProof) : ℕ → Window → ℕ → Window × ℕ × List SinkCall
  | 0, win, wv => (win, wv, [])
  | n + 1, win, wv =>
      let slot := wv &&& WINDOW_MASK
      let stored := win.lens slot
      if stored = 0 then (win, wv, [])
      else
        let msg := win.arenaSlice (slot <<< 6) (stored - 1)
        let r := drainLoop proof n { win.setLen slot 0 with stagedCount := n } (wrappingAdd wv 1)
        (r.1, r.2.1, .onMsg proof wv msg :: r.2.2)

/-- Emit staged payloads from the watermark on, as long as consecutive slots are
populated. The source also returns the number of calls. -/
def drain (win : Window) (w gen : ℕ) : Window × ℕ × List SinkCall :=
  if win.stagedCount = 0 then (win, w, [])
  else
    let r := drainLoop ⟨gen⟩ win.stagedCount win w
    (if r.1.stagedCount = 0 then { r.1 with maxStaged := 0 } else r.1, r.2)

/-! ## The window as held payloads -/

/-- The payload in a slot, if the slot is marked present. -/
def cell (win : Window) (i : ℕ) : Option (List UInt8) :=
  if win.lens i = 0 then none else some (win.arenaSlice (i * 64) (win.lens i - 1))

/-- The payload held for sequence number `q`, seen from watermark `w`. -/
def held (win : Window) (w : ℕ) : ℕ → Option (List UInt8) :=
  RingWindow.view WINDOW_SLOTS win.cell w

/-- Slots marked present. -/
def occupied (win : Window) : Finset ℕ := {i ∈ Finset.range WINDOW_SLOTS | win.lens i ≠ 0}

/-- The count is that of the marked slots, and every stored length fits its slot. -/
structure Sound (win : Window) : Prop where
  count : win.stagedCount = win.occupied.card
  lens_le : ∀ i, win.lens i ≤ SLOT_SIZE + 1

theorem and_mask (q : ℕ) : q &&& WINDOW_MASK = q % WINDOW_SLOTS :=
  Nat.and_two_pow_sub_one_eq_mod q 10

theorem slot_lt (q : ℕ) : q % WINDOW_SLOTS < WINDOW_SLOTS := Nat.mod_lt _ (by decide)

theorem arenaSlice_length (win : Window) (start len : ℕ) :
    (win.arenaSlice start len).length = len := by
  simp [arenaSlice]

theorem new_sound : new.Sound := by
  constructor
  · simp [new, occupied]
  · simp [new]

/-- An empty count means that nothing is held. -/
theorem Sound.lens_eq_zero {win : Window} (h : win.Sound) (h0 : win.stagedCount = 0) {i : ℕ}
    (hi : i < WINDOW_SLOTS) : win.lens i = 0 := by
  by_contra hne
  have hmem : i ∈ win.occupied := by simp [occupied, hi, hne]
  have hcard := h.count
  rw [h0] at hcard
  rw [Finset.card_eq_zero.mp hcard.symm] at hmem
  simp at hmem

theorem Sound.count_le {win : Window} (h : win.Sound) : win.stagedCount ≤ WINDOW_SLOTS := by
  rw [h.count]
  calc win.occupied.card ≤ (Finset.range WINDOW_SLOTS).card :=
        Finset.card_le_card (Finset.filter_subset _ _)
    _ = WINDOW_SLOTS := Finset.card_range _

theorem Sound.held_eq_none {win : Window} (h : win.Sound) (h0 : win.stagedCount = 0)
    (w q : ℕ) : win.held w q = none := by
  unfold held RingWindow.view
  split
  · simp [cell, h.lens_eq_zero h0 (slot_lt q)]
  · rfl

/-- A window that holds nothing has an empty count. -/
theorem Sound.count_eq_zero {win : Window} (h : win.Sound) {w : ℕ}
    (hnone : ∀ q, win.held w q = none) : win.stagedCount = 0 := by
  rw [h.count, Finset.card_eq_zero]
  apply Finset.filter_eq_empty_iff.mpr
  intro i hi hne
  obtain ⟨q, h₁, h₂, rfl⟩ := RingWindow.exists_position w (Finset.mem_range.mp hi)
  have := hnone q
  rw [held, RingWindow.view_of_mem ⟨h₁, h₂⟩, cell, if_neg hne] at this
  cases this

/-- Writing the presence byte of a slot adds it to the occupied ones or removes it. -/
theorem occupied_setLen {win : Window} {slot x : ℕ} (hslot : slot < WINDOW_SLOTS) :
    (win.setLen slot x).occupied =
      if x = 0 then win.occupied.erase slot else insert slot win.occupied := by
  have hiff : ∀ i, i ∈ (win.setLen slot x).occupied ↔
      i < WINDOW_SLOTS ∧ Function.update win.lens slot x i ≠ 0 := by
    intro i
    rw [occupied, Finset.mem_filter, Finset.mem_range]
    rfl
  have hiff' : ∀ i, i ∈ win.occupied ↔ i < WINDOW_SLOTS ∧ win.lens i ≠ 0 := by
    intro i
    rw [occupied, Finset.mem_filter, Finset.mem_range]
  ext i
  rw [hiff]
  by_cases hi : i = slot
  · subst i
    by_cases hx : x = 0
    · simp [hx]
    · simp [hx, hslot]
  · rw [Function.update_of_ne hi, ← hiff']
    by_cases hx : x = 0
    · simp [hx, hi]
    · simp [hx, hi]

/-- Clearing one marked slot lowers the count by one. -/
theorem Sound.unmark {win : Window} (h : win.Sound) {slot : ℕ} (hslot : slot < WINDOW_SLOTS)
    (hne : win.lens slot ≠ 0) :
    ({ win.setLen slot 0 with stagedCount := win.stagedCount - 1 } : Window).Sound := by
  constructor
  · have hocc : (win.setLen slot 0).occupied = win.occupied.erase slot :=
      (occupied_setLen hslot).trans (if_pos rfl)
    have hmem : slot ∈ win.occupied := by
      rw [occupied, Finset.mem_filter, Finset.mem_range]
      exact ⟨hslot, hne⟩
    change win.stagedCount - 1 = (win.setLen slot 0).occupied.card
    rw [hocc, Finset.card_erase_of_mem hmem, ← h.count]
  · intro i
    change Function.update win.lens slot 0 i ≤ SLOT_SIZE + 1
    rw [Function.update_apply]
    split
    · exact Nat.zero_le _
    · exact h.lens_le i

theorem unmark_cell (win : Window) (slot n : ℕ) :
    ({ win.setLen slot 0 with stagedCount := n } : Window).cell =
      Function.update win.cell slot none := by
  funext i
  change (if Function.update win.lens slot 0 i = 0 then none else
    some (win.arenaSlice (i * 64) (Function.update win.lens slot 0 i - 1))) = _
  by_cases hi : i = slot
  · subst i
    simp
  · rw [Function.update_of_ne hi, Function.update_of_ne hi, cell]

/-! ## Staging -/

theorem copyFromSlice_nil (win : Window) (start : ℕ) : win.copyFromSlice start [] = win := by
  have harena : (win.copyFromSlice start []).arena = win.arena := by
    funext k
    simp only [copyFromSlice, List.length_nil]
    rw [if_neg (by omega)]
  cases win
  simp only [copyFromSlice] at harena ⊢
  rw [harena]

/-- Writing one slot leaves the bytes of every other slot alone. -/
theorem arenaSlice_copy {win : Window} {slot i len : ℕ} {data : List UInt8}
    (hdata : data.length ≤ 64) (hlen : len ≤ 64) (hi : i ≠ slot) :
    (win.copyFromSlice (slot * 64) data).arenaSlice (i * 64) len =
      win.arenaSlice (i * 64) len := by
  apply List.map_congr_left
  intro j hj
  have hj' := List.mem_range.mp hj
  simp only [copyFromSlice]
  rw [if_neg (by omega)]

theorem arenaSlice_copy_self {win : Window} {start : ℕ} {data : List UInt8} :
    (win.copyFromSlice start data).arenaSlice start data.length = data := by
  apply List.ext_getElem
  · exact arenaSlice_length _ _ _
  · intro j h₁ h₂
    simp only [arenaSlice, copyFromSlice, List.getElem_map, List.getElem_range]
    rw [if_pos ⟨by omega, by omega⟩, Nat.add_sub_cancel_left, List.getD_eq_getElem?_getD,
      List.getElem?_eq_getElem h₂, Option.getD_some]

/-- The window with `data` written into a slot. -/
def put (win : Window) (slot : ℕ) (data : List UInt8) : Window :=
  { (win.copyFromSlice (slot * 64) data).setLen slot (data.length + 1) with
    stagedCount := if win.lens slot = 0 then win.stagedCount + 1 else win.stagedCount }

/-- Staging writes the slot of `seq`, or does nothing outside the window. -/
theorem stageMsg_eq (win : Window) (w seq : ℕ) (data : List UInt8) :
    win.stageMsg w seq data =
      if wrappingSub (wrappingSub seq w) 1 < WINDOW_SLOTS then
        (win.put (seq % WINDOW_SLOTS) (data.take SLOT_SIZE), true)
      else (win, false) := by
  have hlen : (data.take SLOT_SIZE).length = min data.length SLOT_SIZE := by
    rw [List.length_take, Nat.min_comm]
  have htake : data.take (min data.length SLOT_SIZE) = data.take SLOT_SIZE := by
    rw [Nat.min_comm, ← List.take_take, List.take_length]
  have hcopy : ∀ win : Window, (if min data.length SLOT_SIZE > 0 then
      win.copyFromSlice (seq % WINDOW_SLOTS * 64) (data.take SLOT_SIZE) else win) =
      win.copyFromSlice (seq % WINDOW_SLOTS * 64) (data.take SLOT_SIZE) := by
    intro win
    split
    · rfl
    · have hnil : data.take SLOT_SIZE = [] := List.length_eq_zero_iff.mp (by omega)
      rw [hnil]
      exact (copyFromSlice_nil _ _).symm
  split
  · rename_i hoff
    simp only [stageMsg, if_pos hoff, and_mask, htake, Nat.shiftLeft_eq,
      show (2 : ℕ) ^ 6 = 64 from rfl, hcopy]
    by_cases h0 : win.lens (seq % WINDOW_SLOTS) = 0
    · simp only [if_pos h0, put, hlen]
      rfl
    · simp only [if_neg h0, put, hlen]
      rfl
  · rename_i hoff
    simp only [stageMsg, if_neg hoff]

theorem stageMsg_eq_put {win : Window} {w seq : ℕ} {data : List UInt8}
    (hseq : w < seq ∧ seq < w + WINDOW_SLOTS) (hb : seq < 2 ^ 64) (hdata : data.length ≤ 64) :
    win.stageMsg w seq data = (win.put (seq % WINDOW_SLOTS) data, true) := by
  have hoff : wrappingSub (wrappingSub seq w) 1 < WINDOW_SLOTS := by
    rw [wrappingSub_of_le (by omega) hb, wrappingSub_of_le (by omega) (by omega)]
    omega
  rw [stageMsg_eq, if_pos hoff, List.take_of_length_le (show data.length ≤ SLOT_SIZE from hdata)]

theorem put_cell {win : Window} (hs : win.Sound) {slot : ℕ} {data : List UInt8}
    (hdata : data.length ≤ 64) :
    (win.put slot data).cell = Function.update win.cell slot (some data) := by
  funext i
  have hlens : (win.put slot data).lens i =
      Function.update win.lens slot (data.length + 1) i := rfl
  have hslice : ∀ len, (win.put slot data).arenaSlice (i * 64) len =
      (win.copyFromSlice (slot * 64) data).arenaSlice (i * 64) len := fun _ => rfl
  rw [cell, hlens, hslice]
  by_cases hi : i = slot
  · subst i
    rw [Function.update_self, Function.update_self, if_neg (Nat.succ_ne_zero _),
      Nat.add_sub_cancel, arenaSlice_copy_self]
  · rw [Function.update_of_ne hi, Function.update_of_ne hi, cell]
    have hle := hs.lens_le i
    rw [arenaSlice_copy hdata (by unfold SLOT_SIZE at hle; omega) hi]

theorem Sound.put {win : Window} (hs : win.Sound) {slot : ℕ} {data : List UInt8}
    (hslot : slot < WINDOW_SLOTS) (hdata : data.length ≤ 64) : (win.put slot data).Sound := by
  constructor
  · have hocc : (win.put slot data).occupied = insert slot win.occupied :=
      (occupied_setLen hslot : ((win.copyFromSlice (slot * 64) data).setLen slot
        (data.length + 1)).occupied = _).trans (if_neg (Nat.succ_ne_zero _))
    rw [hocc]
    change (if win.lens slot = 0 then win.stagedCount + 1 else win.stagedCount) = _
    have hmem : slot ∈ win.occupied ↔ win.lens slot ≠ 0 := by
      rw [occupied, Finset.mem_filter, Finset.mem_range]
      exact and_iff_right hslot
    by_cases h0 : win.lens slot = 0
    · rw [if_pos h0, Finset.card_insert_of_notMem (by rw [hmem]; exact not_not.mpr h0),
        ← hs.count]
    · rw [if_neg h0, Finset.insert_eq_of_mem (hmem.mpr h0), ← hs.count]
  · intro i
    change Function.update win.lens slot (data.length + 1) i ≤ SLOT_SIZE + 1
    rw [Function.update_apply]
    split
    · exact Nat.succ_le_succ hdata
    · exact hs.lens_le i

/-- A put inside the window is an update of the held payloads. -/
theorem put_held {win : Window} (hs : win.Sound) {w seq : ℕ} {data : List UInt8}
    (hseq : w ≤ seq ∧ seq < w + WINDOW_SLOTS) (hdata : data.length ≤ 64) :
    (win.put (seq % WINDOW_SLOTS) data).held w =
      Function.update (win.held w) seq (some data) := by
  rw [held, put_cell hs hdata]
  exact RingWindow.view_update hseq _

/-! ## Staging by itself -/

/-- The window at a watermark: every marked slot belongs to exactly one sequence number inside
the window, and the watermark's own slot is empty. -/
structure Ahead (win : Window) (w : ℕ) : Prop where
  belongs : ∀ i < WINDOW_SLOTS, win.lens i ≠ 0 →
    ∃! s, (w < s ∧ s < w + WINDOW_SLOTS) ∧ s % WINDOW_SLOTS = i
  own : win.lens (w % WINDOW_SLOTS) = 0

/-- Only the watermark's own slot belongs to no number inside the window. -/
theorem ahead_iff (win : Window) (w : ℕ) : win.Ahead w ↔ win.lens (w % WINDOW_SLOTS) = 0 := by
  constructor
  · exact Ahead.own
  · intro hown
    refine ⟨?_, hown⟩
    intro i hi hne
    obtain ⟨s, hlow, hhigh, hslot⟩ := RingWindow.exists_position w hi
    have hw : w ≠ s := by
      rintro rfl
      exact hne (hslot ▸ hown)
    refine ⟨s, ⟨⟨Nat.lt_of_le_of_ne hlow hw, hhigh⟩, hslot⟩, ?_⟩
    rintro s' ⟨⟨hlow', hhigh'⟩, hslot'⟩
    exact RingWindow.eq_of_mod_eq ⟨Nat.le_of_lt hlow', hhigh'⟩ ⟨hlow, hhigh⟩ (hslot'.trans hslot.symm)

/-- The compare of `stage_msg` accepts the offsets from 1 to 1024, modulo the word. -/
theorem stageMsg_accepts {w seq : ℕ} (hw : w < 2 ^ 64) (hseq : seq < 2 ^ 64) :
    wrappingSub (wrappingSub seq w) 1 < WINDOW_SLOTS ↔
      (w < seq ∧ seq ≤ w + WINDOW_SLOTS) ∨ seq + 2 ^ 64 ≤ w + WINDOW_SLOTS := by
  have hslots : WINDOW_SLOTS = 1024 := rfl
  rw [hslots]
  rcases Nat.lt_trichotomy seq w with hlt | rfl | hgt
  · have hoff : wrappingSub seq w = seq + 2 ^ 64 - w := by
      rw [wrappingSub, Nat.mod_eq_of_lt (by omega)]
      omega
    rw [hoff, wrappingSub_of_le (by omega) (by omega)]
    omega
  · have hoff : wrappingSub seq seq = 0 := by
      rw [wrappingSub_of_le (Nat.le_refl _) hseq, Nat.sub_self]
    have hone : wrappingSub 0 1 = 2 ^ 64 - 1 := by
      rw [wrappingSub]
      decide
    rw [hoff, hone]
    omega
  · rw [wrappingSub_of_le (Nat.le_of_lt hgt) hseq, wrappingSub_of_le (by omega) (by omega)]
    omega

/-- `stage_msg` answers as documented and keeps the window at its watermark exactly if the number
is not the one at the far end, and not one that only the wrapped difference brings near. -/
theorem stageMsg_ahead_iff (win : Window) (w seq : ℕ) (data : List UInt8) (hw : w < 2 ^ 64)
    (hseq : seq < 2 ^ 64) (h : win.Ahead w) :
    (((win.stageMsg w seq data).2 = true ↔ w < seq ∧ seq < w + WINDOW_SLOTS) ∧
        (win.stageMsg w seq data).1.Ahead w) ↔
      seq ≠ w + WINDOW_SLOTS ∧ ¬ seq + 2 ^ 64 ≤ w + WINDOW_SLOTS := by
  have haccept := stageMsg_accepts hw hseq
  have hslots : WINDOW_SLOTS = 1024 := rfl
  rw [stageMsg_eq]
  by_cases hin : wrappingSub (wrappingSub seq w) 1 < WINDOW_SLOTS
  · rw [if_pos hin]
    have hnear := haccept.mp hin
    rw [hslots] at hnear ⊢
    constructor
    · rintro ⟨hanswer, -⟩
      have hinside := hanswer.mp rfl
      omega
    · rintro ⟨hend, hwrap⟩
      have hinside : w < seq ∧ seq < w + 1024 := by omega
      refine ⟨iff_of_true rfl hinside, (ahead_iff _ w).mpr ?_⟩
      have hne : w % WINDOW_SLOTS ≠ seq % WINDOW_SLOTS := by
        rw [hslots]
        omega
      exact (Function.update_of_ne hne _ _).trans h.own
  · rw [if_neg hin]
    have hfar := fun hor => hin (haccept.mpr hor)
    rw [hslots] at hfar ⊢
    have hout : ¬ (w < seq ∧ seq < w + 1024) := fun hinside =>
      hfar (Or.inl ⟨hinside.1, Nat.le_of_lt hinside.2⟩)
    have hrest : seq ≠ w + 1024 ∧ ¬ seq + 2 ^ 64 ≤ w + 1024 := by
      constructor
      · rintro rfl
        exact hfar (Or.inl ⟨Nat.lt_add_of_pos_right (by decide), Nat.le_refl _⟩)
      · exact fun hwrap => hfar (Or.inr hwrap)
    exact iff_of_true ⟨iff_of_false Bool.false_ne_true hout, h⟩ hrest

theorem new_ahead (w : ℕ) : new.Ahead w := (ahead_iff new w).mpr rfl

/-- An empty window takes the last number inside it. -/
theorem stageMsg_ahead_iff_last :
    ((new.stageMsg 1 1024 [0x53]).2 = true ↔ 1 < 1024 ∧ 1024 < 1 + WINDOW_SLOTS) ∧
      (new.stageMsg 1 1024 [0x53]).1.Ahead 1 :=
  (stageMsg_ahead_iff new 1 1024 [0x53] (by decide) (by decide) (new_ahead 1)).mpr
    ⟨by decide, by decide⟩

/-- One number further the payload lands in the watermark's own slot. -/
theorem stageMsg_far_end :
    new.Ahead 1 ∧ (new.stageMsg 1 1025 [0x53]).2 = true ∧ ¬ 1025 < 1 + WINDOW_SLOTS ∧
      ¬ (new.stageMsg 1 1025 [0x53]).1.Ahead 1 := by
  have hin : wrappingSub (wrappingSub 1025 1) 1 < WINDOW_SLOTS :=
    (stageMsg_accepts (by decide) (by decide)).mpr (Or.inl ⟨by decide, by decide⟩)
  have hrun := stageMsg_eq new 1 1025 [0x53]
  rw [if_pos hin] at hrun
  rw [hrun]
  refine ⟨new_ahead 1, rfl, by decide, ?_⟩
  intro h
  have hown := h.own
  cases hown

/-! ## Clearing -/

/-- Two chunks are one walk over both lists of cells. -/
theorem clearCells_append (cells cells' : List ℕ) (win : Window) :
    clearCells (cells ++ cells') win =
      if (clearCells cells win).2 then ((clearCells cells win).1, true)
      else clearCells cells' (clearCells cells win).1 := by
  induction cells generalizing win with
  | nil => rfl
  | cons cell cells ih =>
      simp only [List.cons_append, clearCells]
      split
      · split
        · rfl
        · exact ih _
      · exact ih _

/-- Clearing empties the listed cells and keeps the others, also when it ends early. -/
theorem clearCells_spec {cells : List ℕ} {win : Window} (hs : win.Sound)
    (hcells : ∀ i ∈ cells, i < WINDOW_SLOTS) :
    (clearCells cells win).1.Sound ∧ (clearCells cells win).1.arena = win.arena ∧
      ∀ i < WINDOW_SLOTS,
        (clearCells cells win).1.lens i = if i ∈ cells then 0 else win.lens i := by
  induction cells generalizing win with
  | nil => exact ⟨hs, rfl, by simp [clearCells]⟩
  | cons cell cells ih =>
      have hcell := hcells cell (by simp)
      have hrest := fun i hi => hcells i (List.mem_cons_of_mem _ hi)
      by_cases hne : win.lens cell ≠ 0
      · have hs' := hs.unmark hcell hne
        by_cases h0 : win.stagedCount - 1 = 0
        · -- the window ran empty, so every cell reads zero
          have hrun : clearCells (cell :: cells) win =
              ({ win.setLen cell 0 with stagedCount := win.stagedCount - 1, maxStaged := 0 },
                true) := by
            simp only [clearCells, if_pos hne, if_pos h0]
          rw [hrun]
          have hzero : ∀ i < WINDOW_SLOTS, Function.update win.lens cell 0 i = 0 :=
            fun i hi => hs'.lens_eq_zero h0 hi
          refine ⟨⟨hs'.count, hs'.lens_le⟩, rfl, ?_⟩
          intro i hi
          change Function.update win.lens cell 0 i = _
          rw [hzero i hi]
          split
          · rfl
          · rename_i hmem
            have hne' : i ≠ cell := fun he => hmem (by simp [he])
            have := hzero i hi
            rw [Function.update_of_ne hne'] at this
            exact this.symm
        · have hrun : clearCells (cell :: cells) win = clearCells cells
              { win.setLen cell 0 with stagedCount := win.stagedCount - 1 } := by
            simp only [clearCells, if_pos hne, if_neg h0]
          rw [hrun]
          obtain ⟨h₁, h₂, h₃⟩ := ih hs' hrest
          refine ⟨h₁, h₂, ?_⟩
          intro i hi
          rw [h₃ i hi]
          change (if i ∈ cells then 0 else Function.update win.lens cell 0 i) = _
          by_cases hic : i = cell
          · subst i; simp
          · simp [hic]
      · have hrun : clearCells (cell :: cells) win = clearCells cells win := by
          simp only [clearCells, if_neg hne]
        rw [hrun]
        obtain ⟨h₁, h₂, h₃⟩ := ih hs hrest
        refine ⟨h₁, h₂, ?_⟩
        intro i hi
        rw [h₃ i hi]
        by_cases hic : i = cell
        · subst i
          simp [not_not.mp hne]
        · simp [hic]

/-- The two linear chunks of the walk: up to the end of the ring, then from slot 0. -/
def clearedCells (oldW n : ℕ) : List ℕ :=
  List.range' (oldW % WINDOW_SLOTS) (min (WINDOW_SLOTS - oldW % WINDOW_SLOTS) n) ++
    List.range (n - min (WINDOW_SLOTS - oldW % WINDOW_SLOTS) n)

/-- The walk covers exactly the residues of `[oldW, oldW + n)`. -/
theorem mem_clearedCells {oldW n i : ℕ} (hn : n ≤ WINDOW_SLOTS) :
    i ∈ clearedCells oldW n ↔
      i < WINDOW_SLOTS ∧ ∃ c, oldW ≤ c ∧ c < oldW + n ∧ c % WINDOW_SLOTS = i := by
  rw [clearedCells, List.mem_append, List.mem_range'_1, List.mem_range]
  unfold WINDOW_SLOTS at *
  constructor
  · rintro (h | h)
    · exact ⟨by omega, oldW + (i - oldW % 1024), by omega, by omega, by omega⟩
    · exact ⟨by omega, oldW + (1024 - oldW % 1024 + i), by omega, by omega, by omega⟩
  · rintro ⟨-, c, hc₁, hc₂, rfl⟩
    omega

theorem clearSlots_eq {win : Window} {oldW newW : ℕ} (hw : oldW < newW)
    (hb : newW < 2 ^ 64) (h0 : win.stagedCount ≠ 0) :
    win.clearSlots oldW newW =
      (clearCells (clearedCells oldW (min newW (oldW + WINDOW_SLOTS) - oldW)) win).1 := by
  have hsat : min newW (saturatingAdd oldW WINDOW_SLOTS) = min newW (oldW + WINDOW_SLOTS) := by
    unfold saturatingAdd
    omega
  have hlimit : ¬min newW (oldW + WINDOW_SLOTS) ≤ oldW := by
    unfold WINDOW_SLOTS; omega
  rw [clearedCells, clearCells_append]
  simp only [clearSlots, if_neg h0, hsat, if_neg hlimit, and_mask]
  split <;> rfl

/-- The cells left behind are empty afterwards, the others are unchanged. -/
theorem clearSlots_lens {win : Window} (hs : win.Sound) {oldW newW : ℕ} (hw : oldW < newW)
    (hb : newW < 2 ^ 64) :
    (win.clearSlots oldW newW).Sound ∧ (win.clearSlots oldW newW).arena = win.arena ∧
      ∀ i < WINDOW_SLOTS,
        ((∃ c, oldW ≤ c ∧ c < newW ∧ c < oldW + WINDOW_SLOTS ∧ c % WINDOW_SLOTS = i) →
          (win.clearSlots oldW newW).lens i = 0) ∧
        ((∀ c, oldW ≤ c → c < newW → c < oldW + WINDOW_SLOTS → c % WINDOW_SLOTS ≠ i) →
          (win.clearSlots oldW newW).lens i = win.lens i) := by
  by_cases h0 : win.stagedCount = 0
  · have hrun : win.clearSlots oldW newW = win := by simp only [clearSlots, if_pos h0]
    rw [hrun]
    exact ⟨hs, rfl, fun i hi => ⟨fun _ => hs.lens_eq_zero h0 hi, fun _ => rfl⟩⟩
  · have hn : min newW (oldW + WINDOW_SLOTS) - oldW ≤ WINDOW_SLOTS := by omega
    have hcells : ∀ i ∈ clearedCells oldW (min newW (oldW + WINDOW_SLOTS) - oldW),
        i < WINDOW_SLOTS := fun i hi => ((mem_clearedCells hn).mp hi).1
    obtain ⟨h₁, h₂, h₃⟩ := clearCells_spec hs hcells
    rw [clearSlots_eq hw hb h0]
    refine ⟨h₁, h₂, fun i hi => ⟨?_, fun hnone => ?_⟩⟩
    · rintro ⟨c, hc₁, hc₂, hc₃, hc₄⟩
      rw [h₃ i hi, if_pos ((mem_clearedCells hn).mpr ⟨hi, c, hc₁, by omega, hc₄⟩)]
    · rw [h₃ i hi, if_neg]
      intro hin
      obtain ⟨-, c, hc₁, hc₂, hc₃⟩ := (mem_clearedCells hn).mp hin
      exact hnone c hc₁ (by omega) (by omega) hc₃

/-- Clear-on-advance keeps exactly what is held at or above the new watermark. -/
theorem clearSlots_spec {win : Window} (hs : win.Sound) {oldW newW : ℕ} (hw : oldW < newW)
    (hb : newW < 2 ^ 64) :
    (win.clearSlots oldW newW).Sound ∧
      ∀ q, (win.clearSlots oldW newW).held newW q =
        if newW ≤ q then win.held oldW q else none := by
  obtain ⟨hs', ha, hl⟩ := clearSlots_lens hs hw hb
  refine ⟨hs', fun q => RingWindow.view_clear (by decide) ?_ ?_ hw.le q⟩
  · intro c hc₁ hc₂ hc₃
    rw [cell, if_pos ((hl _ (slot_lt c)).1 ⟨c, hc₁, hc₂, hc₃, rfl⟩)]
  · intro i hi hnone
    rw [cell, cell, (hl i hi).2 hnone]
    simp only [arenaSlice, ha]

/-! ## Draining -/

/-- The payloads held for `n` consecutive sequence numbers, as sink calls. -/
def callsOf (proof : LiveFeedProof) (held : ℕ → Option (List UInt8)) (start n : ℕ) :
    List SinkCall :=
  (List.range' start n).filterMap fun q => (held q).map fun d => .onMsg proof q d

/-- Draining emits the run of held payloads from the watermark on, moves the watermark
past it and keeps the rest. -/
structure Drained (proof : LiveFeedProof) (win : Window) (w : ℕ)
    (r : Window × ℕ × List SinkCall) : Prop where
  sound : r.1.Sound
  le : w ≤ r.2.1
  run : ∀ q, w ≤ q → q < r.2.1 → win.held w q ≠ none
  stop : win.held w r.2.1 = none
  kept : ∀ q, r.1.held r.2.1 q = if r.2.1 ≤ q then win.held w q else none
  calls : r.2.2 = callsOf proof (win.held w) w (r.2.1 - w)

theorem drained_stop {proof : LiveFeedProof} {win : Window} {w : ℕ} (hs : win.Sound)
    (h : win.held w w = none) : Drained proof win w (win, w, []) where
  sound := hs
  le := Nat.le_refl _
  run := by
    intro q h₁ h₂
    exact absurd h₁ (Nat.not_le.mpr h₂)
  stop := h
  kept := by
    intro q
    split
    · rfl
    · rename_i hq
      exact if_neg fun hm => hq hm.1
  calls := by simp [callsOf]

theorem held_unmark (win : Window) (w n q : ℕ) :
    ({ win.setLen (w % WINDOW_SLOTS) 0 with stagedCount := n } : Window).held (w + 1) q =
      if w + 1 ≤ q then win.held w q else none := by
  rw [held, unmark_cell]
  exact RingWindow.view_drop (by decide) _ _ _

theorem held_of_unmark (win : Window) {w n q : ℕ}
    (h : ({ win.setLen (w % WINDOW_SLOTS) 0 with stagedCount := n } : Window).held (w + 1) q ≠ none) :
    win.held w q ≠ none := by
  rw [held_unmark] at h
  split at h
  · exact h
  · exact absurd rfl h

theorem drainLoop_spec {proof : LiveFeedProof} {n : ℕ} {win : Window} {w : ℕ} (hs : win.Sound)
    (hn : win.stagedCount = n) (hb : ∀ q, win.held w q ≠ none → q + 1 < 2 ^ 64) :
    Drained proof win w (drainLoop proof n win w) := by
  induction n generalizing win w with
  | zero => exact drained_stop hs (hs.held_eq_none hn w w)
  | succ n ih =>
      have hslot := slot_lt w
      have hview : win.held w w = win.cell (w % WINDOW_SLOTS) :=
        RingWindow.view_of_mem ⟨Nat.le_refl _, by unfold WINDOW_SLOTS; omega⟩
      by_cases h0 : win.lens (w % WINDOW_SLOTS) = 0
      · have hrun : drainLoop proof (n + 1) win w = (win, w, []) := by
          simp only [drainLoop, and_mask, if_pos h0]
        rw [hrun]
        exact drained_stop hs (by rw [hview, cell, if_pos h0])
      · have hcell : win.held w w = some (win.arenaSlice (w % WINDOW_SLOTS * 64)
            (win.lens (w % WINDOW_SLOTS) - 1)) := by rw [hview, cell, if_neg h0]
        have hmark := hs.unmark hslot h0
        have hwrap : wrappingAdd w 1 = w + 1 :=
          wrappingAdd_of_lt (hb w (by rw [hcell]; simp))
        simp only [drainLoop, and_mask, if_neg h0, hwrap, Nat.shiftLeft_eq,
          show (2 : ℕ) ^ 6 = 64 from rfl]
        rw [hn, Nat.add_sub_cancel] at hmark
        -- the next window shows what this one holds above `w`
        have hstep := win.held_unmark w n
        have hd := ih (w := w + 1) hmark rfl (fun q hq => hb q (win.held_of_unmark hq))
        generalize drainLoop proof n _ (w + 1) = r at *
        have hle := hd.le
        refine ⟨hd.sound, Nat.le_of_succ_le hle, ?_, ?_, ?_, ?_⟩
        · intro q h₁ h₂
          by_cases hq : q = w
          · rw [hq, hcell]; simp
          · have := hd.run q (by omega) h₂
            rwa [hstep, if_pos (by omega)] at this
        · have := hd.stop
          rwa [hstep, if_pos hle] at this
        · intro q
          rw [hd.kept, hstep]
          by_cases hq : r.2.1 ≤ q
          · rw [if_pos hq, if_pos hq, if_pos (by omega)]
          · rw [if_neg hq, if_neg hq]
        · have hlen : r.2.1 - w = (r.2.1 - (w + 1)) + 1 := by omega
          have hcalls := hd.calls
          simp only at hcalls ⊢
          rw [hcalls, hlen, callsOf, callsOf, List.range'_succ,
            List.filterMap_cons_some (b := .onMsg proof w _) (by rw [hcell]; rfl)]
          congr 1
          apply List.filterMap_congr
          intro q hq
          rw [List.mem_range'_1] at hq
          rw [hstep, if_pos (by omega)]

theorem drain_spec {win : Window} {w gen : ℕ} (hs : win.Sound)
    (hb : ∀ q, win.held w q ≠ none → q + 1 < 2 ^ 64) :
    Drained ⟨gen⟩ win w (win.drain w gen) := by
  unfold drain
  by_cases h0 : win.stagedCount = 0
  · rw [if_pos h0]
    exact drained_stop hs (hs.held_eq_none h0 w w)
  · rw [if_neg h0]
    have hd : Drained ⟨gen⟩ win w (drainLoop ⟨gen⟩ win.stagedCount win w) :=
      drainLoop_spec hs rfl hb
    dsimp only
    split
    · exact ⟨⟨hd.sound.count, hd.sound.lens_le⟩, hd.le, hd.run, hd.stop, hd.kept, hd.calls⟩
    · exact hd

/-- Draining stops at once when the slot of the watermark is empty. -/
theorem drain_of_empty_slot {win : Window} {w gen : ℕ} (h : win.lens (w % WINDOW_SLOTS) = 0) :
    win.drain w gen = (win, w, []) := by
  unfold drain
  by_cases h0 : win.stagedCount = 0
  · rw [if_pos h0]
  · obtain ⟨n, hn⟩ := Nat.exists_eq_succ_of_ne_zero h0
    have hrun : drainLoop ⟨gen⟩ win.stagedCount win w = (win, w, []) := by
      rw [hn]
      simp only [drainLoop, and_mask, if_pos h]
    simp only [if_neg h0, hrun]

theorem lens_eq_zero_of_held {win : Window} {w : ℕ} (h : win.held w w = none) :
    win.lens (w % WINDOW_SLOTS) = 0 := by
  by_contra hne
  rw [held, RingWindow.view_of_mem ⟨Nat.le_refl _, by unfold WINDOW_SLOTS; omega⟩, cell,
    if_neg hne] at h
  cases h

end Window

end HftProj.Arbitrator
