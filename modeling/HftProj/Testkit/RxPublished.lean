import HftProj.Lib.Transition
import HftProj.Testkit.RxWorker

/-!
# What the sink has published

The windows of a generation, the ring of their records and the ready cursor, over the sink's
steps. The worker relies on nothing else.
-/

namespace HftProj.Testkit.RxWorker

open HftProj.Lib HftProj.Lib.RecordRing
open HftProj.Testkit.RxSubmit (chunk recRing rxChunkCap rxNarr Opened)

variable {f f' : Fabric} {s s' : Sink} {w : Opened} {gid n v a : ℕ}

/-- The record of a window. -/
def word (gen : ℕ) (w : Opened) : Word := ⟨gen, w.base, w.passStart, w.arrSlot⟩

/-- What holds of the shared words and the sink between the steps. -/
structure Published (f : Fabric) (s : Sink) : Prop where
  sorted : s.windows.Pairwise fun a b => b.base < a.base
  below : ∀ w ∈ s.windows, w.base ≤ s.nextSpan
  first : ∀ w ∈ s.windows.getLast?, w.base = 0
  empty : s.windows = [] → s.nextSpan = 0 ∧ s.winOpen = false ∧ s.claims = []
  rotates : Rotates recRing Opened.recSlot s.windows
  slots : ∀ w ∈ s.windows, w.recSlot < recRing
  last : ∀ w ∈ s.windows.head?, f.lastSlot = some w.recSlot
  lastLt : ∀ last ∈ f.lastSlot, last < recRing
  held : ∀ x, ∀ w ∈ latest Opened.recSlot s.windows x, f.records x = word s.gen w
  stale : ∀ x, latest Opened.recSlot s.windows x = none → (f.records x).gen ≠ s.gen
  ready : f.ready.1 = s.gen → s.windows ≠ [] ∧ f.ready.2 ≤ s.nextSpan
  blob : 0 < s.nextSpan → f.blobBase ≠ 0
  cleared : s.windows ≠ [] → s.marksCleared = true
  marks : s.marksCleared = true → ∀ x k, f.chunkState x = k + 1 → k ∈ s.claims

namespace Published

theorem start {t : State} (h : Start t) : Published t.fabric t.sink := by
  have hno : ∀ {w : Opened} {P : Prop}, w ∈ t.sink.windows → P := by
    intro w P hw
    rw [h.windows] at hw
    exact absurd hw List.not_mem_nil
  have hnone : ∀ x, latest Opened.recSlot t.sink.windows x = none := by
    intro x
    rw [h.windows]
    rfl
  refine ⟨?_, fun w hw => hno hw, ?_, fun _ => ⟨h.nextSpan, h.winOpen, h.claims⟩, ?_,
    fun w hw => hno hw, ?_, h.lastSlot, ?_, fun x _ => h.records x,
    fun hgen => absurd hgen h.stale, ?_, fun hne => absurd h.windows hne, ?_⟩
  · rw [h.windows]
    exact .nil
  · intro w hw
    rw [h.windows] at hw
    cases hw
  · rw [h.windows]
    exact .nil
  · intro w hw
    rw [h.windows] at hw
    cases hw
  · intro x w hw
    rw [hnone x] at hw
    cases hw
  · intro hpos
    rw [h.nextSpan] at hpos
    exact absurd hpos (Nat.lt_irrefl 0)
  · intro hcleared
    rw [h.marksCleared] at hcleared
    cases hcleared

theorem exposed_le (h : Published f s) : exposed f s ≤ s.nextSpan := by
  rw [exposed]
  split
  · exact (h.ready ‹_›).2
  · exact Nat.zero_le _

theorem nextSlot_lt (f : Fabric) : f.nextSlot < recRing := by
  rw [Fabric.nextSlot]
  split
  · decide
  · exact Nat.mod_lt _ (by decide)

/-- The slot of the next window. -/
theorem nextSlot_eq (h : Published f s) (hw : w ∈ s.windows.head?) :
    f.nextSlot = (w.recSlot + 1) % recRing := by
  rw [Fabric.nextSlot, h.last w hw]

end Published

/-! ## Opening -/

theorem publishRecord_eq {slot : ℕ} {r : Word} (h : f.publishRecord slot r = some f') :
    f' = { f with records := Function.update f.records slot r, lastSlot := some slot } := by
  rw [Fabric.publishRecord] at h
  split at h
  · exact (Option.some_inj.mp h).symm
  · cases h

/-- What an open does. -/
theorem openWindow_cases (h : openWindow f s a = some (f', s')) :
    ∃ w : Opened, w.base = s.nextSpan ∧ w.recSlot = f.nextSlot ∧ w.arrSlot = a ∧
      w.passStart = decide (s.passStartSpan = some s.nextSpan) ∧
      f' = { f with
        chunkState := if s.marksCleared then f.chunkState else fun _ => 0,
        records := Function.update f.records w.recSlot (word s.gen w),
        lastSlot := some w.recSlot } ∧
      s' = { s with marksCleared := true, winOpen := true, windows := w :: s.windows } := by
  rw [openWindow] at h
  obtain ⟨f₁, hf₁, heq⟩ := Option.map_eq_some_iff.mp h
  obtain ⟨rfl, rfl⟩ := Prod.mk.inj heq
  obtain rfl := publishRecord_eq hf₁
  refine ⟨⟨s.nextSpan, a, f.nextSlot, s.passStartSpan = some s.nextSpan⟩, rfl, ?_, rfl, rfl, ?_, ?_⟩
  all_goals by_cases hm : s.marksCleared <;> simp only [hm, Bool.false_eq_true, if_true, if_false]
  all_goals rfl

theorem beginPass_cases (h : beginPass f s a = some (f', s')) :
    ∃ w : Opened, w.base = s.nextSpan ∧ w.recSlot = f.nextSlot ∧ w.arrSlot = a ∧
      w.passStart = true ∧
      f' = { f with
        chunkState := if s.marksCleared then f.chunkState else fun _ => 0,
        records := Function.update f.records w.recSlot (word s.gen w),
        lastSlot := some w.recSlot } ∧
      s' = { s with
        passStartSpan := some s.nextSpan, marksCleared := true, winOpen := true,
        windows := w :: s.windows } := by
  rw [beginPass] at h
  split at h
  · cases h
  · obtain ⟨w, hbase, hslot, harr, hpass, hf, hs⟩ := openWindow_cases h
    exact ⟨w, hbase, hslot, harr, hpass.trans (decide_eq_true rfl), hf, hs⟩

/-- A window opened behind one that holds a span is in order. -/
theorem Published.beginPass (h : Published f s)
    (hspan : ∀ w ∈ s.windows.head?, w.base < s.nextSpan)
    (hstep : beginPass f s a = some (f', s')) : Published f' s' := by
  obtain ⟨w, hbase, hslot, -, -, rfl, rfl⟩ := beginPass_cases hstep
  have hall : ∀ v ∈ s.windows, v.base < w.base := by
    intro v hv
    rw [hbase]
    cases hws : s.windows with
    | nil => exact absurd (hws ▸ hv) List.not_mem_nil
    | cons u us =>
        have hu : u.base < s.nextSpan := hspan u (by rw [hws]; rfl)
        have hsorted := h.sorted
        rw [hws] at hv hsorted
        obtain rfl | hv := List.mem_cons.mp hv
        · exact hu
        · exact Nat.lt_trans ((List.pairwise_cons.mp hsorted).1 v hv) hu
  refine ⟨List.pairwise_cons.mpr ⟨hall, h.sorted⟩, ?_, ?_, nofun, ?_, ?_, ?_, ?_, ?_, ?_, ?_, h.blob,
    fun _ => rfl, ?_⟩
  · intro v hv
    obtain rfl | hv := List.mem_cons.mp hv
    · exact Nat.le_of_eq hbase
    · exact h.below v hv
  · intro v hv
    dsimp only at hv
    cases hws : s.windows with
    | nil =>
        rw [hws, List.getLast?_singleton] at hv
        rw [← Option.some_inj.mp hv, hbase]
        exact (h.empty hws).1
    | cons u us =>
        rw [hws, List.getLast?_cons_cons, ← hws] at hv
        exact h.first v hv
  · apply List.isChain_cons.mpr
    exact ⟨fun v hv => hslot.trans (h.nextSlot_eq hv), h.rotates⟩
  · intro v hv
    obtain rfl | hv := List.mem_cons.mp hv
    · exact hslot ▸ Published.nextSlot_lt f
    · exact h.slots v hv
  · intro v hv
    obtain rfl := Option.some_inj.mp hv
    rfl
  · intro last hlast
    obtain rfl := Option.some_inj.mp hlast
    exact hslot ▸ Published.nextSlot_lt f
  · intro x v hv
    dsimp only at hv ⊢
    obtain rfl | hne := eq_or_ne x w.recSlot
    · rw [latest_cons_self] at hv
      obtain rfl := Option.some_inj.mp hv
      rw [Function.update_self]
    · rw [latest_cons_of_ne hne.symm] at hv
      rw [Function.update_of_ne hne]
      exact h.held x v hv
  · intro x hx
    dsimp only at hx ⊢
    obtain rfl | hne := eq_or_ne x w.recSlot
    · rw [latest_cons_self] at hx
      cases hx
    · rw [latest_cons_of_ne hne.symm] at hx
      rw [Function.update_of_ne hne]
      exact h.stale x hx
  · exact fun hgen => ⟨nofun, (h.ready hgen).2⟩
  · intro _ x k hk
    dsimp only at hk ⊢
    split at hk
    · exact h.marks ‹_› x k hk
    · cases hk

/-! ## The other steps -/

/-- What a step of the sink that opens nothing leaves as it is. -/
structure SameWindows (f f' : Fabric) (s s' : Sink) : Prop where
  gen : s'.gen = s.gen
  windows : s'.windows = s.windows
  records : f'.records = f.records
  lastSlot : f'.lastSlot = f.lastSlot
  marksCleared : s'.marksCleared = s.marksCleared

theorem Published.of_same (h : Published f s) (hsame : SameWindows f f' s s')
    (hnext : s.nextSpan ≤ s'.nextSpan) (hne : s.windows ≠ [])
    (hready : f'.ready.1 = s.gen → f'.ready.2 ≤ s'.nextSpan)
    (hblob : 0 < s'.nextSpan → f'.blobBase ≠ 0)
    (hmarks : s.marksCleared = true → ∀ x k, f'.chunkState x = k + 1 → k ∈ s'.claims) :
    Published f' s' := by
  obtain ⟨hgen, hwin, hrec, hlast, hcleared⟩ := hsame
  refine ⟨hwin ▸ h.sorted, ?_, hwin ▸ h.first, fun hnil => absurd (hwin ▸ hnil) hne,
    hwin ▸ h.rotates, hwin ▸ h.slots, ?_, hlast ▸ h.lastLt, ?_, ?_, ?_, hblob, ?_, ?_⟩
  · intro w hw
    exact (h.below w (hwin ▸ hw)).trans hnext
  · rw [hwin, hlast]
    exact h.last
  · rw [hwin, hrec, hgen]
    exact h.held
  · rw [hwin, hrec, hgen]
    exact h.stale
  · rw [hgen]
    exact fun heq => ⟨hwin ▸ hne, hready heq⟩
  · exact fun _ => hcleared.trans (h.cleared hne)
  · rw [hcleared]
    exact hmarks

theorem Published.windows_ne (h : Published f s) (hopen : s.winOpen = true) : s.windows ≠ [] := by
  intro hnil
  rw [(h.empty hnil).2.1] at hopen
  cases hopen

theorem submit_cases (h : submit f s n = some (f', s')) :
    s.winOpen = true ∧ 0 < n ∧ f' = { f with blobBase := if f.blobBase = 0 then 1 else f.blobBase } ∧
      s' = { s with nextSpan := s.nextSpan + n } := by
  rw [submit] at h
  split at h
  · obtain ⟨rfl, rfl⟩ := Prod.mk.inj (Option.some_inj.mp h)
    obtain ⟨hopen, hnext⟩ := ‹_ ∧ _›
    exact ⟨hopen, hnext, rfl, rfl⟩
  · cases h

theorem Published.submit (h : Published f s) (hstep : submit f s n = some (f', s')) :
    Published f' s' := by
  obtain ⟨hopen, -, rfl, rfl⟩ := submit_cases hstep
  refine h.of_same ⟨rfl, rfl, rfl, rfl, rfl⟩ (Nat.le_add_right _ _) (h.windows_ne hopen) ?_ ?_ h.marks
  · exact fun hgen => (h.ready hgen).2.trans (Nat.le_add_right _ _)
  · intro _
    dsimp only
    split
    · exact Nat.one_ne_zero
    · exact ‹_›

theorem publishReady_eq {g : ℕ} (h : f.publishReady g v = some f') :
    f' = { f with ready := (g, v) } := by
  rw [Fabric.publishReady] at h
  split at h
  · exact (Option.some_inj.mp h).symm
  · cases h

theorem publish_cases (h : publish f s v = some (f', s')) :
    s.winOpen = true ∧ exposed f s ≤ v ∧ v ≤ s.nextSpan ∧ f' = { f with ready := (s.gen, v) } ∧
      s' = s := by
  rw [publish] at h
  split at h
  · obtain ⟨f₁, hf₁, heq⟩ := Option.map_eq_some_iff.mp h
    obtain ⟨rfl, rfl⟩ := Prod.mk.inj heq
    obtain ⟨hopen, hlo, hhi⟩ := ‹_ ∧ _ ∧ _›
    exact ⟨hopen, hlo, hhi, publishReady_eq hf₁, rfl⟩
  · cases h

theorem Published.publish (h : Published f s) (hstep : publish f s v = some (f', s')) :
    Published f' s' := by
  obtain ⟨hopen, -, hle, rfl, rfl⟩ := publish_cases hstep
  exact h.of_same ⟨rfl, rfl, rfl, rfl, rfl⟩ (Nat.le_refl _) (h.windows_ne hopen) (fun _ => hle)
    h.blob h.marks

theorem claim_cases (h : claim f s = some (f', s')) :
    s.winOpen = true ∧ s.nextSpan % chunk = 0 ∧ f' = f.markInline (s.nextSpan / chunk) ∧
      s' = { s with claims := s.nextSpan / chunk :: s.claims } := by
  rw [claim] at h
  split at h
  · obtain ⟨rfl, rfl⟩ := Prod.mk.inj (Option.some_inj.mp h)
    obtain ⟨hopen, hnext⟩ := ‹_ ∧ _›
    exact ⟨hopen, hnext, rfl, rfl⟩
  · cases h

theorem Published.claim (h : Published f s) (hstep : claim f s = some (f', s')) :
    Published f' s' := by
  obtain ⟨hopen, -, rfl, rfl⟩ := claim_cases hstep
  refine h.of_same ⟨rfl, rfl, rfl, rfl, rfl⟩ (Nat.le_refl _) (h.windows_ne hopen)
    (fun hgen => (h.ready hgen).2) h.blob ?_
  intro hcleared x k hk
  rw [Fabric.markInline] at hk
  dsimp only at hk ⊢
  obtain rfl | hne := eq_or_ne x (s.nextSpan / chunk % rxChunkCap)
  · rw [Function.update_self] at hk
    rw [Nat.succ.inj hk]
    exact List.mem_cons_self
  · rw [Function.update_of_ne hne] at hk
    exact List.mem_cons_of_mem _ (h.marks hcleared x k hk)

theorem endPass_cases (h : endPass f s = some (f', s')) :
    s.winOpen = true ∧ f' = { f with ready := (s.gen, s.nextSpan) } ∧
      s' = { s with winOpen := false } := by
  rw [endPass] at h
  split at h
  · obtain ⟨f₁, hf₁, heq⟩ := Option.map_eq_some_iff.mp h
    obtain ⟨rfl, rfl⟩ := Prod.mk.inj heq
    exact ⟨‹_›, publishReady_eq hf₁, rfl⟩
  · cases h

theorem Published.endPass (h : Published f s) (hstep : endPass f s = some (f', s')) :
    Published f' s' := by
  obtain ⟨hopen, rfl, rfl⟩ := endPass_cases hstep
  exact h.of_same ⟨rfl, rfl, rfl, rfl, rfl⟩ (Nat.le_refl _) (h.windows_ne hopen)
    (fun _ => Nat.le_refl _) h.blob h.marks

/-! ## Reading the records -/

/-- The windows opened beyond a base. -/
def beyond (windows : List Opened) (base : ℕ) : ℕ := windows.countP fun w => base < w.base

theorem beyond_split {pre post : List Opened} (h : (pre ++ w :: post).Pairwise fun a b => b.base < a.base) :
    beyond (pre ++ w :: post) w.base = pre.length := by
  obtain ⟨-, htail, hacross⟩ := List.pairwise_append.mp h
  have hpre : pre.countP (fun u => w.base < u.base) = pre.length :=
    List.countP_eq_length.mpr fun u hu => decide_eq_true (hacross u hu w List.mem_cons_self)
  have hpost : (w :: post).countP (fun u => w.base < u.base) = 0 := by
    apply List.countP_eq_zero.mpr
    intro u hu hlt
    have hlt := of_decide_eq_true hlt
    obtain rfl | hu := List.mem_cons.mp hu
    · exact Nat.lt_irrefl _ hlt
    · exact Nat.lt_asymm hlt ((List.pairwise_cons.mp htail).1 u hu)
  rw [beyond, List.countP_append, hpre, hpost, Nat.add_zero]

namespace Published

/-- A word of the generation is the record of a window on that slot. -/
theorem record_window (h : Published f s) {x : ℕ} (hgen : (f.records x).gen = s.gen) :
    ∃ w ∈ s.windows, w.recSlot = x ∧ f.records x = word s.gen w := by
  cases hlatest : latest Opened.recSlot s.windows x with
  | none => exact absurd hgen (h.stale x hlatest)
  | some w =>
      exact ⟨w, List.mem_of_find?_eq_some hlatest, slot_of_latest hlatest, h.held x w hlatest⟩

theorem base_inj (h : Published f s) {u v : Opened} (hu : u ∈ s.windows) (hv : v ∈ s.windows)
    (hbase : u.base = v.base) : u = v := by
  by_contra hne
  obtain ⟨pre, post, hsplit⟩ := List.append_of_mem hu
  have hsorted := h.sorted
  rw [hsplit] at hsorted hv
  obtain ⟨-, htail, hacross⟩ := List.pairwise_append.mp hsorted
  obtain hv | hv := List.mem_append.mp hv
  · have := hacross v hv u List.mem_cons_self
    omega
  · obtain heq | hv := List.mem_cons.mp hv
    · exact hne heq.symm
    · have := (List.pairwise_cons.mp htail).1 v hv
      omega

/-- With fewer than `recRing` windows beyond a window, the slot behind its own holds the next
window's record, and no record of a later base if there is no next window. -/
theorem next_record (h : Published f s) (hw : w ∈ s.windows)
    (hlead : beyond s.windows w.base < recRing) :
    ((∀ u ∈ s.windows, u.base ≤ w.base) ∧
      ¬ ((f.records ((w.recSlot + 1) % recRing)).gen = s.gen ∧
        w.base < (f.records ((w.recSlot + 1) % recRing)).base)) ∨
    ∃ v ∈ s.windows, w.base < v.base ∧ (∀ u ∈ s.windows, w.base < u.base → v.base ≤ u.base) ∧
      v.recSlot = (w.recSlot + 1) % recRing ∧
      f.records ((w.recSlot + 1) % recRing) = word s.gen v := by
  obtain ⟨pre, post, hsplit⟩ := List.append_of_mem hw
  have hsorted := h.sorted
  have hrotates := h.rotates
  rw [hsplit] at hsorted hlead hrotates
  rw [beyond_split hsorted] at hlead
  obtain ⟨hpre, htail, hacross⟩ := List.pairwise_append.mp hsorted
  have hpost : ∀ u ∈ post, u.base < w.base := (List.pairwise_cons.mp htail).1
  obtain rfl | ⟨front, v, rfl⟩ := pre.eq_nil_or_concat'
  · refine Or.inl ⟨?_, ?_⟩
    · intro u hu
      rw [hsplit] at hu
      obtain rfl | hu := List.mem_cons.mp hu
      · exact Nat.le_refl _
      · exact Nat.le_of_lt (hpost u hu)
    · rintro ⟨hgen, hlt⟩
      obtain ⟨u, hu, -, hrec⟩ := h.record_window hgen
      rw [hrec] at hlt
      rw [hsplit] at hu
      obtain rfl | hu := List.mem_cons.mp hu
      · exact Nat.lt_irrefl _ hlt
      · exact Nat.lt_asymm hlt (hpost u hu)
  · have hv : v ∈ s.windows := by simp [hsplit]
    have hvw : w.base < v.base := hacross v (by simp) w List.mem_cons_self
    have hcat : front ++ [v] ++ w :: post = front ++ v :: w :: post := by simp
    rw [hcat] at hrotates hsplit
    refine Or.inr ⟨v, hv, hvw, ?_, hrotates.link, ?_⟩
    · intro u hu hlt
      rw [hsplit] at hu
      obtain hu | hu := List.mem_append.mp hu
      · exact Nat.le_of_lt ((List.pairwise_append.mp hpre).2.2 u hu v List.mem_cons_self)
      · obtain rfl | hu := List.mem_cons.mp hu
        · exact Nat.le_refl _
        · obtain rfl | hu := List.mem_cons.mp hu
          · exact absurd hlt (Nat.lt_irrefl _)
          · exact absurd hlt (Nat.lt_asymm (hpost u hu))
    · apply h.held
      rw [hsplit]
      apply hrotates.latest_next (h.slots v hv)
      rw [List.length_append] at hlead
      exact Nat.lt_of_succ_lt hlead

/-- With fewer than `recRing` windows beyond the generation's first, its record is there. -/
theorem first_record (h : Published f s) (hne : s.windows ≠ []) (hlead : beyond s.windows 0 < recRing) :
    ∃ w ∈ s.windows, w.base = 0 ∧ f.records w.recSlot = word s.gen w := by
  obtain ⟨pre, w, hsplit⟩ := s.windows.eq_nil_or_concat'.resolve_left hne
  have hw : w ∈ s.windows := by simp [hsplit]
  have hbase : w.base = 0 := h.first w (by simp [hsplit])
  refine ⟨w, hw, hbase, h.held _ w ?_⟩
  have hsorted := h.sorted
  have hrotates := h.rotates
  have hslot := h.slots w hw
  rw [← hbase, hsplit, beyond_split (hsplit ▸ hsorted)] at hlead
  rw [hsplit] at hrotates ⊢
  exact hrotates.latest_self hslot hlead

/-- The window that holds a span is the last one at or before it. -/
theorem owner_eq (h : Published f s) (hw : w ∈ s.windows) (hle : w.base ≤ gid)
    (hnext : ∀ u ∈ s.windows, w.base < u.base → gid < u.base) : owner s.windows gid = some w := by
  obtain ⟨pre, post, hsplit⟩ := List.append_of_mem hw
  have hsorted := h.sorted
  rw [hsplit] at hsorted hnext
  obtain ⟨-, -, hacross⟩ := List.pairwise_append.mp hsorted
  have hnone : pre.find? (fun u => u.base ≤ gid) = none := by
    apply List.find?_eq_none.mpr
    intro u hu hbase
    have hlt := hnext u (List.mem_append_left _ hu) (hacross u hu w List.mem_cons_self)
    have := of_decide_eq_true hbase
    omega
  rw [owner, hsplit, List.find?_append, hnone, Option.none_or]
  exact List.find?_cons_of_pos (decide_eq_true hle)

end Published

end HftProj.Testkit.RxWorker
