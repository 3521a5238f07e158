import HftProj.Testkit.ScriptCoverage

/-!
# Runs of the replay log

Over a run of calls in stream order, a recording holds the segments since the last boundary, and
every sealed script tiles a pass of the learned length from a boundary that the current one
follows by whole passes.
-/

namespace HftProj.Testkit.ScriptRuns

open HftProj.Lib HftProj.Lib.Tiling HftProj.Lib.RoundRobin
open HftProj.Testkit.RxSubmit HftProj.Testkit.LaneGrid HftProj.Testkit.ScriptCoverage

inductive Call where
  | onBoundary (rb : ℕ)
  | pushSeg (first k : ℕ) (b : U64)
  | discardPhase
  | noteEmitted (k : ℕ) (b : U64)

def call (log : ResLog) : Call → ResLog
  | .onBoundary rb => log.onBoundary rb
  | .pushSeg first k b => log.pushSeg first k b
  | .discardPhase => log.discardPhase
  | .noteEmitted k b => log.noteEmitted k b

def run (log : ResLog) (cs : List Call) : ResLog := cs.foldl call log

/-- The segments pushed. -/
@[grind =]
def segsOf : List Call → List (ℕ × ℕ)
  | [] => []
  | .pushSeg first k _ :: cs => (first, k) :: segsOf cs
  | _ :: cs => segsOf cs

/-- The calls are in stream order, from a position on: boundaries do not decrease, and between
them segments inside the lane's chunks start one behind the other. -/
@[grind =]
def Ordered (l n : ℕ) : ℕ → List Call → Prop
  | _, [] => True
  | c, .onBoundary rb :: cs => c ≤ rb ∧ Ordered l n rb cs
  | c, .pushSeg first k _ :: cs => c ≤ first ∧ Inside l n first k ∧ Ordered l n (first + 1) cs
  | c, _ :: cs => Ordered l n c cs

/-- The last boundary and the segments pushed since. -/
abbrev Ghost := Option ℕ × List (ℕ × ℕ)

def Ghost.call (g : Ghost) : Call → Ghost
  | .onBoundary rb => (some rb, [])
  | .pushSeg first k _ => (g.1, g.2 ++ [(first, k)])
  | _ => g

variable {l n a b c m ph : ℕ} {log log' : ResLog} {g : Ghost} {cs : List Call}

/-- The recorded script of a phase. -/
def script (log : ResLog) (ph : ℕ) : List ResLogSeg :=
  (log.segs.drop (log.phaseLo ph)).take (log.phaseN ph)

theorem slice_take {α : Type*} {xs : List α} {lo k : ℕ} (h : lo + k ≤ m) :
    ((xs.take m).drop lo).take k = (xs.drop lo).take k := by
  rw [List.drop_take, List.take_take, Nat.min_eq_left (by omega)]

/-- A phase with a script of a pass of length `len`, of which `a` is some passes behind; the
script lies in the first `m` segments. -/
structure Sealed (l n len a m : ℕ) (log : ResLog) (ph : ℕ) : Prop where
  within : log.phaseLo ph + log.phaseN ph ≤ m
  phase : log.phaseRb ph % (n * chunk) = ph
  aligned : ∃ j, a = log.phaseRb ph + j * len
  tiled : Tiled l n (log.phaseRb ph + len) (log.phaseRb ph)
    (shifted (log.phaseRb ph) (script log ph))

/-- What two states of the log agree on when they hold the same scripts among the first `m`
segments. -/
structure Keeps (m : ℕ) (log log' : ResLog) (ph : ℕ) : Prop where
  segs : log'.segs.take m = log.segs.take m
  lo : log'.phaseLo ph = log.phaseLo ph
  n : log'.phaseN ph = log.phaseN ph
  rb : log'.phaseRb ph = log.phaseRb ph

theorem Keeps.script (h : Keeps m log log' ph) (hm : log.phaseLo ph + log.phaseN ph ≤ m) :
    script log' ph = script log ph := by
  rw [ScriptRuns.script, ScriptRuns.script, h.lo, h.n, ← slice_take hm, h.segs, slice_take hm]

theorem Sealed.keeps {len m' : ℕ} (h : Sealed l n len a m log ph) (hk : Keeps m log log' ph)
    (hm : m ≤ m') : Sealed l n len a m' log' ph where
  within := by
    rw [hk.lo, hk.n]
    exact h.within.trans hm
  phase := hk.rb ▸ h.phase
  aligned := hk.rb ▸ h.aligned
  tiled := by
    rw [hk.rb, hk.script h.within]
    exact h.tiled

/-- One more pass. -/
theorem Sealed.next {len : ℕ} (h : Sealed l n len a m log ph) (hb : b = a + len) :
    Sealed l n len b m log ph where
  within := h.within
  phase := h.phase
  aligned := by
    obtain ⟨j, rfl⟩ := h.aligned
    exact ⟨j + 1, by rw [hb, Nat.succ_mul, Nat.add_assoc]⟩
  tiled := h.tiled

/-- The segments behind all sealed scripts start here. -/
def base (log : ResLog) : ℕ := if log.recording then log.phaseLo log.phase else log.segs.length

/-- A recording in progress. -/
structure Recording (log : ResLog) (a : ℕ) (pushes : List (ℕ × ℕ)) : Prop where
  phase : log.phase = a % log.grid
  rb : log.phaseRb log.phase = a
  n : log.phaseN log.phase = 0
  lo : log.phaseLo log.phase ≤ log.segs.length
  kept : ((log.segs.drop (log.phaseLo log.phase)).map fun s => (s.rel, s.k)) = kept a pushes

structure Inv (l n c : ℕ) (g : Ghost) (log : ResLog) : Prop where
  lane : log.laneIdx = l
  lanes : log.nLanes = n
  grid : log.grid = n * chunk
  cur : log.curRb = g.1
  prev : log.prevRb = g.1
  len : log.segs.length ≤ reslogSegs
  pushes : ∀ t ∈ g.2, Inside l n t.1 t.2 ∧ t.1 < c
  sorted : g.2.Pairwise (·.1 < ·.1)
  after : ∀ a, g.1 = some a → a ≤ c ∧ ∀ t ∈ g.2, a ≤ t.1
  idle : log.poisoned = true → log.recording = false
  recording : log.recording = true → ∃ a, g.1 = some a ∧ Recording log a g.2
  learned : ∀ ph, 0 < log.phaseN ph → 0 < log.passLen
  scripts : ∀ ph, 0 < log.phaseN ph →
    ∃ a, g.1 = some a ∧ Sealed l n log.passLen a (base log) log ph

/-! ## Calls between boundaries -/

namespace Inv

theorem noteEmitted (h : Inv l n c g log) (k : ℕ) (b : U64) :
    Inv l n c g (log.noteEmitted k b) := by
  obtain ⟨lane, lanes, grid, cur, prev, len, pushes, sorted, after, idle, recording, learned,
    scripts⟩ := h
  refine ⟨lane, lanes, grid, cur, prev, len, pushes, sorted, after, idle, ?_, learned, ?_⟩
  · intro hrec
    obtain ⟨a, ha, hphase, hrb, hn, hlo, hkept⟩ := recording hrec
    exact ⟨a, ha, hphase, hrb, hn, hlo, hkept⟩
  · intro ph hph
    obtain ⟨a, ha, hsealed⟩ := scripts ph hph
    exact ⟨a, ha, hsealed.keeps ⟨rfl, rfl, rfl, rfl⟩ (Nat.le_refl _)⟩

/-- A log without scripts that does not record. -/
theorem of_idle (h : Inv l n c g log) (hlane : log'.laneIdx = log.laneIdx)
    (hlanes : log'.nLanes = log.nLanes) (hgrid : log'.grid = log.grid)
    (hcur : log'.curRb = log.curRb) (hprev : log'.prevRb = log.prevRb)
    (hlen : log'.segs.length ≤ log.segs.length) (hrec : log'.recording = false)
    (hn : ∀ ph, log'.phaseN ph = 0) : Inv l n c g log' where
  lane := hlane.trans h.lane
  lanes := hlanes.trans h.lanes
  grid := hgrid.trans h.grid
  cur := hcur.trans h.cur
  prev := hprev.trans h.prev
  len := hlen.trans h.len
  pushes := h.pushes
  sorted := h.sorted
  after := h.after
  idle := fun _ => hrec
  recording := fun hon => absurd (hrec.symm.trans hon) Bool.false_ne_true
  learned := fun ph hph => absurd (hn ph) (Nat.pos_iff_ne_zero.mp hph)
  scripts := fun ph hph => absurd (hn ph) (Nat.pos_iff_ne_zero.mp hph)

theorem poison (h : Inv l n c g log) : Inv l n c g log.poison :=
  h.of_idle rfl rfl rfl rfl rfl (Nat.zero_le _) rfl fun _ => rfl

theorem discardPhase (h : Inv l n c g log) : Inv l n c g log.discardPhase := by
  rw [ResLog.discardPhase]
  split
  · exact h
  · rename_i hon
    have hrec : log.recording = true := by simpa using hon
    obtain ⟨a, ha, hrecord⟩ := h.recording hrec
    have hbase : base log = log.phaseLo log.phase := if_pos hrec
    refine ⟨h.lane, h.lanes, h.grid, h.cur, h.prev, ?_, h.pushes, h.sorted, h.after, fun _ => rfl, ?_, ?_,
      ?_⟩
    · exact (List.length_take_le' _ _).trans h.len
    · exact fun hoff => absurd hoff Bool.false_ne_true
    · intro ph hph
      apply h.learned ph
      dsimp only at hph
      by_cases heq : ph = log.phase
      · rw [heq, Function.update_self] at hph
        exact absurd hph (Nat.lt_irrefl 0)
      · rwa [Function.update_of_ne heq] at hph
    · intro ph hph
      dsimp only at hph
      by_cases heq : ph = log.phase
      · rw [heq, Function.update_self] at hph
        exact absurd hph (Nat.lt_irrefl 0)
      · rw [Function.update_of_ne heq] at hph
        obtain ⟨a', ha', hsealed⟩ := h.scripts ph hph
        refine ⟨a', ha', hsealed.keeps ⟨?_, rfl, Function.update_of_ne heq _ _, rfl⟩ ?_⟩
        · rw [hbase]
          exact List.take_take.trans (by rw [Nat.min_self])
        · rw [hbase, base, if_neg Bool.false_ne_true, List.length_take]
          exact Nat.le_min.mpr ⟨Nat.le_refl _, hrecord.lo⟩

/-- One more segment, of which a recording has taken notice. -/
theorem snoc {first k : ℕ} (h : Inv l n c g log) (hc : c ≤ first) (hin : Inside l n first k)
    (hrec : log.recording = true →
      ∃ a, g.1 = some a ∧ Recording log' a (g.2 ++ [(first, k)]))
    (hlog : log' = { log with segs := log'.segs }) (hlen : log'.segs.length ≤ reslogSegs)
    (hbase : base log ≤ base log') (hsegs : log'.segs.take (base log) = log.segs.take (base log)) :
    Inv l n (first + 1) (g.1, g.2 ++ [(first, k)]) log' := by
  have hoff : log'.recording = log.recording := by rw [hlog]
  have hpassLen : log'.passLen = log.passLen := by rw [hlog]
  have hphaseN : log'.phaseN = log.phaseN := by rw [hlog]
  refine ⟨?_, ?_, ?_, ?_, ?_, hlen, ?_, ?_, ?_, ?_, fun hon => hrec (hoff.symm.trans hon), ?_, ?_⟩
  · exact (congrArg ResLog.laneIdx hlog).trans h.lane
  · exact (congrArg ResLog.nLanes hlog).trans h.lanes
  · exact (congrArg ResLog.grid hlog).trans h.grid
  · exact (congrArg ResLog.curRb hlog).trans h.cur
  · exact (congrArg ResLog.prevRb hlog).trans h.prev
  · intro t ht
    obtain ht | ht := List.mem_append.mp ht
    · exact ⟨(h.pushes t ht).1, by have := (h.pushes t ht).2; omega⟩
    · obtain rfl := List.mem_singleton.mp ht
      exact ⟨hin, Nat.lt_succ_self _⟩
  · refine List.pairwise_append.mpr ⟨h.sorted, List.pairwise_singleton _ _, ?_⟩
    intro t ht u hu
    obtain rfl := List.mem_singleton.mp hu
    exact Nat.lt_of_lt_of_le (h.pushes t ht).2 hc
  · intro a ha
    obtain ⟨hle, hafter⟩ := h.after a ha
    refine ⟨by omega, fun t ht => ?_⟩
    obtain ht | ht := List.mem_append.mp ht
    · exact hafter t ht
    · obtain rfl := List.mem_singleton.mp ht
      exact hle.trans hc
  · intro hpoisoned
    rw [hoff]
    exact h.idle ((congrArg ResLog.poisoned hlog).symm.trans hpoisoned)
  · intro ph hph
    rw [hpassLen]
    exact h.learned ph (by rwa [hphaseN] at hph)
  · intro ph hph
    rw [hphaseN] at hph
    obtain ⟨a, ha, hsealed⟩ := h.scripts ph hph
    have hphaseLo : log'.phaseLo = log.phaseLo := by rw [hlog]
    have hphaseRb : log'.phaseRb = log.phaseRb := by rw [hlog]
    refine ⟨a, ha, hpassLen ▸ hsealed.keeps ⟨hsegs, ?_, ?_, ?_⟩ hbase⟩
    · rw [hphaseLo]
    · rw [hphaseN]
    · rw [hphaseRb]

theorem pushSeg {first k : ℕ} (h : Inv l n c g log) (hc : c ≤ first) (hin : Inside l n first k)
    (b : U64) : Inv l n (first + 1) (g.1, g.2 ++ [(first, k)]) (log.pushSeg first k b) := by
  have hnoted := h.noteEmitted k b
  rw [ResLog.pushSeg]
  dsimp only
  generalize log.noteEmitted k b = noted at hnoted
  split
  · rename_i hoff
    refine hnoted.snoc hc hin (fun hon => ?_) rfl hnoted.len (Nat.le_refl _) rfl
    rw [hon, Bool.not_true, Bool.false_or] at hoff
    exact absurd ((hnoted.idle hoff).symm.trans hon) Bool.false_ne_true
  · rename_i hon
    have hrec : noted.recording = true := by
      simp only [Bool.or_eq_true, Bool.not_eq_true', not_or, Bool.not_eq_false] at hon
      exact hon.1
    split
    · exact hnoted.poison.snoc hc hin (fun hoff => absurd hoff Bool.false_ne_true) rfl
        hnoted.poison.len (Nat.le_refl _) rfl
    · rename_i hroom
      obtain ⟨a, ha, hphase, hrb, hn, hlo, hkept⟩ := hnoted.recording hrec
      have hbase : base noted = noted.phaseLo noted.phase := if_pos hrec
      refine hnoted.snoc hc hin (fun _ => ⟨a, ha, hphase, hrb, hn, ?_, ?_⟩) rfl ?_ ?_ ?_
      · dsimp only
        rw [List.length_append]
        exact Nat.le_add_right_of_le hlo
      · have hcur : noted.curRb.getD u64Max = a := by
          rw [hnoted.cur, ha]
          rfl
        dsimp only
        rw [List.drop_append_of_le_length hlo, List.map_append, hkept, hcur, kept, kept,
          List.map_append]
        rfl
      · dsimp only
        rw [List.length_append]
        exact Nat.lt_of_not_le hroom
      · rw [hbase, base, if_pos hrec]
      · rw [hbase]
        exact List.take_append_of_le_length hlo

end Inv

/-! ## The close -/

variable {pushes : List (ℕ × ℕ)}

/-- The end of a recording seals the script if it tiles the pass. -/
theorem Inv.sealed_iff (hl : l < n) (hn : n * chunk ≤ reslogPhases)
    (h : Inv l n c (some a, pushes) log) (hc : c ≤ b) (hrec : log.recording = true) :
    log.tiles b = true ↔ pushes ≠ [] ∧ Tiled l n b a pushes := by
  obtain ⟨a', ha, hrecord⟩ := h.recording hrec
  obtain rfl := Option.some.inj ha
  refine tiles_iff hl hn h.lane h.lanes h.cur rfl ?_ hrecord.kept (fun t ht => (h.pushes t ht).1) ?_
  · rw [List.length_drop]
    exact (Nat.sub_le _ _).trans h.len
  · exact fun t ht =>
      ⟨(h.after a rfl).2 t ht, Nat.lt_of_lt_of_le (h.pushes t ht).2 hc⟩

/-- What holds of the log behind a close at `b`. -/
structure Closed (l n b : ℕ) (g : Ghost) (log log' : ResLog) : Prop where
  lane : log'.laneIdx = l
  lanes : log'.nLanes = n
  grid : log'.grid = n * chunk
  prev : log'.prevRb = g.1
  passLen : log'.passLen = log.passLen
  len : log'.segs.length ≤ reslogSegs
  recording : log'.recording = false
  scripts : ∀ ph, 0 < log'.phaseN ph → ∃ a, g.1 = some a ∧
    (0 < log.passLen ∧ Sealed l n log.passLen a log'.segs.length log' ph ∨
      a < b ∧ Sealed l n (b - a) a log'.segs.length log' ph)

theorem Inv.closed_idle (h : Inv l n c g log) (hoff : log.recording = false) :
    Closed l n b g log log where
  lane := h.lane
  lanes := h.lanes
  grid := h.grid
  prev := h.prev
  passLen := rfl
  len := h.len
  recording := hoff
  scripts := by
    intro ph hph
    obtain ⟨a, ha, hsealed⟩ := h.scripts ph hph
    have hbase : base log = log.segs.length := if_neg (by rw [hoff]; exact Bool.false_ne_true)
    exact ⟨a, ha, Or.inl ⟨h.learned ph hph, hbase ▸ hsealed⟩⟩

theorem Inv.closed (hl : l < n) (hn : n * chunk ≤ reslogPhases) (h : Inv l n c g log)
    (hc : c ≤ b) : Closed l n b g log (log.closeRecording b) := by
  cases hrec : log.recording with
  | false =>
      rw [ResLog.closeRecording, hrec, if_neg Bool.false_ne_true]
      exact h.closed_idle hrec
  | true =>
      obtain ⟨a, ha, hrecord⟩ := h.recording hrec
      have hbase : base log = log.phaseLo log.phase := if_pos hrec
      have hold : ∀ ph, 0 < log.phaseN ph →
          0 < log.passLen ∧ Sealed l n log.passLen a (base log) log ph := by
        intro ph hph
        obtain ⟨a', ha', hsealed⟩ := h.scripts ph hph
        obtain rfl := Option.some.inj (ha.symm.trans ha')
        exact ⟨h.learned ph hph, hsealed⟩
      rw [ResLog.closeRecording, hrec, if_pos rfl]
      dsimp only
      split
      · rename_i htiles
        refine ⟨h.lane, h.lanes, h.grid, h.prev, rfl, h.len, rfl, fun ph hph => ⟨a, ha, ?_⟩⟩
        dsimp only at hph
        by_cases hne : ph = log.phase
        · have hg : g = (some a, g.2) := Prod.ext ha rfl
          rw [hg] at h
          obtain ⟨hsome, htiled⟩ := (h.sealed_iff hl hn hc hrec).mp htiles
          obtain ⟨t, ht⟩ := List.exists_mem_of_ne_nil _ hsome
          have hrange : ∀ t ∈ g.2, a ≤ t.1 ∧ t.1 < b := fun t ht =>
            ⟨(h.after a rfl).2 t ht, Nat.lt_of_lt_of_le (h.pushes t ht).2 hc⟩
          have hlen : (log.segs.drop (log.phaseLo log.phase)).length ≤ reslogSegs := by
            rw [List.length_drop]
            exact (Nat.sub_le _ _).trans h.len
          have hplayed := shifted_of_tiled hl hn hlen hrecord.kept hrange htiled
          have hab : a < b := Nat.lt_of_le_of_lt (hrange t ht).1 (hrange t ht).2
          subst hne
          refine Or.inr ⟨hab, ?_, ?_, ⟨0, ?_⟩, ?_⟩
          · dsimp only
            rw [Function.update_self]
            exact Nat.le_of_eq (Nat.add_sub_cancel' hrecord.lo)
          · dsimp only
            rw [hrecord.rb, ← h.grid]
            exact hrecord.phase.symm
          · dsimp only
            rw [hrecord.rb, Nat.zero_mul, Nat.add_zero]
          · dsimp only [script]
            rw [Function.update_self, hrecord.rb, ← List.length_drop, List.take_length, hplayed,
              Nat.add_sub_cancel' (Nat.le_of_lt hab)]
            exact htiled
        · have hkeep := Function.update_of_ne hne (log.segs.length - log.phaseLo log.phase)
            log.phaseN
          rw [hkeep] at hph
          obtain ⟨hlearned, hsealed⟩ := hold ph hph
          refine Or.inl ⟨hlearned, hsealed.keeps ⟨rfl, rfl, hkeep, rfl⟩ ?_⟩
          rw [hbase]
          exact hrecord.lo
      · refine ⟨h.lane, h.lanes, h.grid, h.prev, rfl, ?_, rfl, fun ph hph => ⟨a, ha, ?_⟩⟩
        · exact (List.length_take_le' _ _).trans h.len
        · dsimp only at hph
          by_cases hne : ph = log.phase
          · rw [hne, Function.update_self] at hph
            exact absurd hph (Nat.lt_irrefl 0)
          · have hkeep := Function.update_of_ne hne 0 log.phaseN
            rw [hkeep] at hph
            obtain ⟨hlearned, hsealed⟩ := hold ph hph
            refine Or.inl ⟨hlearned, hsealed.keeps ⟨?_, rfl, hkeep, rfl⟩ ?_⟩
            · rw [hbase]
              exact List.take_take.trans (by rw [Nat.min_self])
            · rw [hbase, List.length_take]
              exact Nat.le_min.mpr ⟨Nat.le_refl _, hrecord.lo⟩

/-! ## Crossing a boundary -/

/-- What holds of the log behind the length law at `b`. -/
structure Crossed (l n b : ℕ) (log : ResLog) : Prop where
  lane : log.laneIdx = l
  lanes : log.nLanes = n
  grid : log.grid = n * chunk
  len : log.segs.length ≤ reslogSegs
  recording : log.recording = false
  scripts : ∀ ph, 0 < log.phaseN ph →
    0 < log.passLen ∧ Sealed l n log.passLen b log.segs.length log ph

theorem Sealed.same {len : ℕ} (h : Sealed l n len a m log ph) (hsegs : log'.segs = log.segs)
    (hlo : log'.phaseLo = log.phaseLo) (hn : log'.phaseN = log.phaseN)
    (hrb : log'.phaseRb = log.phaseRb) : Sealed l n len a m log' ph := by
  refine h.keeps ⟨?_, ?_, ?_, ?_⟩ (Nat.le_refl m)
  · rw [hsegs]
  · rw [hlo]
  · rw [hn]
  · rw [hrb]

/-- Scripts outlive the length law only if the pass was as long as they are. -/
theorem Closed.crossed (h : Closed l n b g log log') (hg : ∀ a, g.1 = some a → a ≤ b) :
    Crossed l n b (log'.lengthLaw b) := by
  rw [ResLog.lengthLaw]
  cases hprev : log'.prevRb with
  | none =>
      refine ⟨h.lane, h.lanes, h.grid, h.len, h.recording, fun ph hph => ?_⟩
      obtain ⟨a, ha, -⟩ := h.scripts ph hph
      rw [← h.prev, hprev] at ha
      cases ha
  | some p =>
      have hp : g.1 = some p := h.prev.symm.trans hprev
      have hle := hg p hp
      have hscripts : ∀ ph, 0 < log'.phaseN ph →
          (0 < log.passLen ∧ Sealed l n log.passLen p log'.segs.length log' ph) ∨
            p < b ∧ Sealed l n (b - p) p log'.segs.length log' ph := by
        intro ph hph
        obtain ⟨a, ha, hsealed⟩ := h.scripts ph hph
        obtain rfl := Option.some.inj (hp.symm.trans ha)
        exact hsealed
      dsimp only
      rw [LaneGrid.wrappingSub, if_pos hle]
      split
      · rename_i hzero
        refine ⟨h.lane, h.lanes, h.grid, h.len, h.recording, fun ph hph => ?_⟩
        obtain ⟨hpos, -⟩ | ⟨hlt, hsealed⟩ := hscripts ph hph
        · rw [← h.passLen, hzero] at hpos
          exact absurd hpos (Nat.lt_irrefl 0)
        · exact ⟨Nat.sub_pos_of_lt hlt, (hsealed.next (Nat.add_sub_cancel' hle).symm).same
            rfl rfl rfl rfl⟩
      · split
        · exact ⟨h.lane, h.lanes, h.grid, Nat.zero_le _, rfl,
            fun ph hph => absurd hph (Nat.lt_irrefl 0)⟩
        · rename_i hpos hsame
          have hlen : b - p = log'.passLen := not_not.mp hsame
          refine ⟨h.lane, h.lanes, h.grid, h.len, h.recording, fun ph hph => ?_⟩
          have hsealed : Sealed l n log'.passLen p log'.segs.length log' ph := by
            obtain ⟨-, hsealed⟩ | ⟨-, hsealed⟩ := hscripts ph hph
            · exact h.passLen ▸ hsealed
            · exact hlen ▸ hsealed
          exact ⟨Nat.pos_of_ne_zero hpos, hsealed.next (by omega)⟩

/-- A script that is played from `b` tiles a pass of the learned length. -/
def Plays (l n b : ℕ) (log : ResLog) : Prop :=
  Tiled l n (b + log.passLen) b
    (shifted b ((log.segs.drop log.rpNext).take (log.rpEnd - log.rpNext)))

/-- Whole turns apart, a script tiles the lane's share again. -/
theorem Sealed.plays {len : ℕ} (h : Sealed l n len a m log ph) (hph : a % (n * chunk) = ph) :
    Tiled l n (a + len) a (shifted a (script log ph)) := by
  obtain ⟨j, ha⟩ := h.aligned
  have hmod : log.phaseRb ph ≡ a [MOD n * chunk] := h.phase.trans hph.symm
  have hle : log.phaseRb ph ≤ a := by
    rw [ha]
    exact Nat.le_add_right _ _
  obtain ⟨t, ht⟩ := (Nat.modEq_iff_dvd' hle).mp hmod
  have hsplit : a = log.phaseRb ph + t * (n * chunk) := by
    rw [Nat.mul_comm t, ← ht, Nat.add_sub_cancel' hle]
  have hshift := h.tiled.shift (d := t * (n * chunk)) (fun p => own_add_turns chunk_pos t) (by
    rintro x k ⟨hpos, hown, hfit⟩
    refine ⟨hpos, (own_add_turns chunk_pos t).mpr hown, ?_⟩
    rwa [← Nat.mul_assoc, Nat.add_mul_mod_self_right])
  have hmap : (shifted (log.phaseRb ph) (script log ph)).map
      (fun s => (s.1 + t * (n * chunk), s.2)) = shifted a (script log ph) := by
    rw [shifted, shifted, List.map_map]
    apply List.map_congr_left
    intro s _
    rw [hsplit]
    exact Prod.ext (Nat.add_right_comm _ _ _) rfl
  rw [hmap, Nat.add_right_comm, ← hsplit] at hshift
  exact hshift

theorem Crossed.opened (h : Crossed l n b log) (hcur : log.curRb = some b)
    (hprev : log.prevRb = some b) (hpoisoned : log.poisoned = false) :
    Inv l n b (some b, []) (log.openRecording b) := by
  have hother : ∀ ph, 0 < (log.openRecording b).phaseN ph →
      ph ≠ b % log.grid ∧ 0 < log.phaseN ph := by
    intro ph hph
    dsimp only [ResLog.openRecording] at hph
    by_cases hne : ph = b % log.grid
    · rw [hne, Function.update_self] at hph
      exact absurd hph (Nat.lt_irrefl 0)
    · rw [Function.update_of_ne hne] at hph
      exact ⟨hne, hph⟩
  refine ⟨h.lane, h.lanes, h.grid, hcur, hprev, h.len, ?_, List.Pairwise.nil, ?_, ?_, ?_, ?_, ?_⟩
  · exact fun t ht => absurd ht List.not_mem_nil
  · intro a ha
    obtain rfl := Option.some.inj ha
    exact ⟨Nat.le_refl _, fun t ht => absurd ht List.not_mem_nil⟩
  · intro hon
    exact absurd (hpoisoned.symm.trans hon) Bool.false_ne_true
  · intro _
    refine ⟨b, rfl, rfl, Function.update_self .., Function.update_self .., ?_, ?_⟩
    · dsimp only [ResLog.openRecording]
      rw [Function.update_self]
    · dsimp only [ResLog.openRecording]
      rw [Function.update_self, List.drop_length]
      rfl
  · exact fun ph hph => (h.scripts ph (hother ph hph).2).1
  · intro ph hph
    obtain ⟨hne, hold⟩ := hother ph hph
    refine ⟨b, rfl, (h.scripts ph hold).2.keeps ⟨rfl, ?_, ?_, ?_⟩ ?_⟩
    · exact Function.update_of_ne hne _ _
    · exact Function.update_of_ne hne _ _
    · exact Function.update_of_ne hne _ _
    · have hon : (log.openRecording b).recording = true := rfl
      have hlo : (log.openRecording b).phaseLo (b % log.grid) = log.segs.length :=
        Function.update_self ..
      rw [base, if_pos hon]
      exact Nat.le_of_eq hlo.symm

theorem Crossed.idle (h : Crossed l n b log) (hcur : log.curRb = some b)
    (hprev : log.prevRb = some b) : Inv l n b (some b, []) log := by
  have hbase : base log = log.segs.length := if_neg (by rw [h.recording]; exact Bool.false_ne_true)
  refine ⟨h.lane, h.lanes, h.grid, hcur, hprev, h.len, ?_, List.Pairwise.nil, ?_,
    fun _ => h.recording, ?_, ?_, ?_⟩
  · exact fun t ht => absurd ht List.not_mem_nil
  · intro a ha
    obtain rfl := Option.some.inj ha
    exact ⟨Nat.le_refl _, fun t ht => absurd ht List.not_mem_nil⟩
  · exact fun hon => absurd (h.recording.symm.trans hon) Bool.false_ne_true
  · exact fun ph hph => (h.scripts ph hph).1
  · exact fun ph hph => ⟨b, rfl, hbase ▸ (h.scripts ph hph).2⟩

/-- What a boundary does once it has been crossed. -/
structure Armed (l n b : ℕ) (log log' : ResLog) : Prop where
  inv : Inv l n b (some b, []) log'
  plays : log'.replaying = true → 0 < log'.passLen ∧ Plays l n b log'
  kept : ∀ ph, 0 < log'.phaseN ph ↔ 0 < log.phaseN ph

/-- A sealed phase is always aligned, so it is replayed, and any other is recorded. -/
theorem Crossed.armed (h : Crossed l n b log) (hcur : log.curRb = some b)
    (hprev : log.prevRb = some b) (hphase : log.phase = b % log.grid)
    (hoff : log.replaying = false) : Armed l n b log (log.arm b) := by
  have hidle := h.idle hcur hprev
  rw [ResLog.arm]
  split
  · refine ⟨?_, fun hon => absurd (hoff.symm.trans hon) Bool.false_ne_true, fun ph => Iff.rfl⟩
    exact Crossed.idle ⟨h.lane, h.lanes, h.grid, h.len, h.recording, fun ph hph =>
      ⟨(h.scripts ph hph).1, (h.scripts ph hph).2.same rfl rfl rfl rfl⟩⟩ hcur hprev
  · rename_i hlive
    simp only [Bool.or_eq_true, Bool.not_eq_true', not_or, Bool.not_eq_true] at hlive
    dsimp only
    split
    · rename_i hpos
      obtain ⟨hlearned, hsealed⟩ := h.scripts _ hpos
      have hgrid : b % (n * chunk) = log.phase := by rw [hphase, h.grid]
      have hplays := hsealed.plays hgrid
      obtain ⟨j, hj⟩ := hsealed.aligned
      have hle : log.phaseRb log.phase ≤ b := by
        rw [hj]
        exact Nat.le_add_right _ _
      have haligned : LaneGrid.wrappingSub b (log.phaseRb log.phase) % log.passLen = 0 := by
        rw [LaneGrid.wrappingSub, if_pos hle, Nat.sub_eq_of_eq_add' hj]
        exact Nat.mul_mod_left j _
      rw [if_pos ⟨hlearned, haligned⟩]
      refine ⟨?_, fun _ => ⟨hlearned, ?_⟩, fun ph => Iff.rfl⟩
      · exact Crossed.idle ⟨h.lane, h.lanes, h.grid, h.len, h.recording, fun ph hph =>
          ⟨(h.scripts ph hph).1, (h.scripts ph hph).2.same rfl rfl rfl rfl⟩⟩ hcur hprev
      · rw [Plays]
        dsimp only
        rw [Nat.add_sub_cancel_left]
        exact hplays
    · rename_i hzero
      refine ⟨h.opened hcur hprev hlive.1.1, ?_, fun ph => ?_⟩
      · exact fun hon => absurd (hoff.symm.trans hon) Bool.false_ne_true
      · dsimp only [ResLog.openRecording]
        by_cases hne : ph = b % log.grid
        · rw [← hphase] at hne ⊢
          rw [hne, Function.update_self]
          omega
        · rw [Function.update_of_ne hne]

/-- The state in which a boundary is crossed, before the replay or the recording. -/
def crossing (log : ResLog) (rb : ℕ) : ResLog :=
  let lawful := ResLog.lengthLaw
    { log.closeRecording rb with bcAcc := (0, 0), pendingBc := some (log.epoch, log.bcAcc) } rb
  { lawful with
    prevRb := some rb
    curRb := some rb
    phase := rb % lawful.grid
    replaying := false
    epoch := lawful.epoch + 1 }

theorem onBoundary_eq (log : ResLog) (rb : ℕ) : log.onBoundary rb = (crossing log rb).arm rb := rfl

theorem Closed.staged (h : Closed l n b g log log') (acc : BitVec 32 × U64)
    (bc : Option (ℕ × BitVec 32 × U64)) :
    Closed l n b g log { log' with bcAcc := acc, pendingBc := bc } := by
  refine ⟨h.lane, h.lanes, h.grid, h.prev, h.passLen, h.len, h.recording, fun ph hph => ?_⟩
  obtain ⟨a, ha, hsealed⟩ := h.scripts ph hph
  refine ⟨a, ha, ?_⟩
  obtain ⟨hpos, hsealed⟩ | ⟨hlt, hsealed⟩ := hsealed
  · exact Or.inl ⟨hpos, hsealed.same rfl rfl rfl rfl⟩
  · exact Or.inr ⟨hlt, hsealed.same rfl rfl rfl rfl⟩

theorem Inv.crossing (hl : l < n) (hn : n * chunk ≤ reslogPhases) (h : Inv l n c g log)
    (hc : c ≤ b) : Crossed l n b (crossing log b) := by
  have hg : ∀ a, g.1 = some a → a ≤ b := fun a ha => (h.after a ha).1.trans hc
  have hcrossed := ((h.closed hl hn hc).staged (0, 0) (some (log.epoch, log.bcAcc))).crossed hg
  exact ⟨hcrossed.lane, hcrossed.lanes, hcrossed.grid, hcrossed.len, hcrossed.recording,
    fun ph hph => ⟨(hcrossed.scripts ph hph).1, (hcrossed.scripts ph hph).2.same rfl rfl rfl rfl⟩⟩

theorem Inv.onBoundary (hl : l < n) (hn : n * chunk ≤ reslogPhases) (h : Inv l n c g log)
    (hc : c ≤ b) : Armed l n b (ScriptRuns.crossing log b) (log.onBoundary b) := by
  rw [onBoundary_eq]
  exact (h.crossing hl hn hc).armed rfl rfl rfl rfl

/-! ## Runs -/

theorem new_inv {enabled audit : Bool} (hnew : ResLog.new enabled audit n = some log) :
    n * chunk ≤ reslogPhases ∧ Inv l n 0 (none, []) (log.setLane l) := by
  rw [ResLog.new] at hnew
  split at hnew
  · rename_i hle
    obtain rfl := Option.some.inj hnew
    refine ⟨hle, rfl, rfl, rfl, rfl, rfl, Nat.zero_le _, ?_, List.Pairwise.nil, ?_, fun _ => rfl,
      ?_, ?_, ?_⟩
    · exact fun t ht => absurd ht List.not_mem_nil
    · exact fun a ha => by cases ha
    · exact fun hon => absurd hon Bool.false_ne_true
    · exact fun ph hph => absurd hph (Nat.lt_irrefl 0)
    · exact fun ph hph => absurd hph (Nat.lt_irrefl 0)
  · cases hnew

/-- The invariant is kept over a run in stream order. -/
theorem Inv.run (hl : l < n) (hn : n * chunk ≤ reslogPhases) {ds : List Call}
    (h : Inv l n c g log) (hord : Ordered l n c (cs ++ ds)) :
    ∃ c', Inv l n c' (cs.foldl Ghost.call g) (run log cs) ∧ Ordered l n c' ds := by
  induction cs generalizing c g log with
  | nil => exact ⟨c, h, hord⟩
  | cons d cs ih =>
      cases d with
      | onBoundary rb => exact ih (h.onBoundary hl hn hord.1).inv hord.2
      | pushSeg first k b => exact ih (h.pushSeg hord.1 hord.2.1 b) hord.2.2
      | discardPhase => exact ih h.discardPhase hord
      | noteEmitted k b => exact ih (h.noteEmitted k b) hord

/-- Between boundaries the ghost collects the segments pushed. -/
theorem ghost_between {mid : List Call} (hmid : ∀ rb, .onBoundary rb ∉ mid) :
    mid.foldl Ghost.call g = (g.1, g.2 ++ segsOf mid) := by
  induction mid generalizing g with
  | nil => exact Prod.ext rfl (List.append_nil _).symm
  | cons d mid ih =>
      have hrest : ∀ rb, Call.onBoundary rb ∉ mid := fun rb hrb =>
        hmid rb (List.mem_cons_of_mem d hrb)
      rw [List.foldl_cons, ih hrest]
      cases d with
      | onBoundary rb => exact absurd List.mem_cons_self (hmid rb)
      | pushSeg first k b => exact Prod.ext rfl (List.append_assoc _ _ _)
      | discardPhase => rfl
      | noteEmitted k b => rfl

/-! ## The laws -/

theorem exact_of_tiled {segs : List (ℕ × ℕ)} (h : Tiled l n b a segs) :
    (∀ t ∈ segs, Inside l n t.1 t.2) ∧ Exact (OwnSpan l n) a b segs := by
  have hin : ∀ t ∈ segs, Inside l n t.1 t.2 := Covers.forall_rel h
  exact ⟨hin, Covers.exact h fun t ht => (hin t ht).solid⟩

/-- What is sealed at the end of a recording. -/
theorem Inv.close_iff (hl : l < n) (hn : n * chunk ≤ reslogPhases)
    (h : Inv l n c (some a, pushes) log) (hc : c ≤ b) (hrec : log.recording = true) :
    0 < (log.closeRecording b).phaseN log.phase ↔
      pushes ≠ [] ∧ Exact (OwnSpan l n) a b pushes := by
  obtain ⟨a', ha, hrecord⟩ := h.recording hrec
  obtain rfl := Option.some.inj ha
  have hab : a ≤ b := (h.after a rfl).1.trans hc
  have hexact : Tiled l n b a pushes ↔ Exact (OwnSpan l n) a b pushes := by
    refine ⟨fun htiled => (exact_of_tiled htiled).2, fun hex => ?_⟩
    exact hex.covers hab (fun t ht => (h.pushes t ht).1.solid) (fun t ht => (h.pushes t ht).1)
      h.sorted
  have hcount := length_kept hrecord.kept
  rw [List.length_drop] at hcount
  rw [← hexact, ← h.sealed_iff hl hn hc hrec, ResLog.closeRecording, hrec, if_pos rfl]
  dsimp only
  split
  · rename_i htiles
    have hsome := ((h.sealed_iff hl hn hc hrec).mp htiles).1
    dsimp only
    rw [Function.update_self, hcount]
    exact ⟨fun _ => htiles, fun _ => List.length_pos_iff.mpr hsome⟩
  · rename_i htiles
    dsimp only
    rw [Function.update_self]
    exact ⟨fun hpos => absurd hpos (Nat.lt_irrefl 0), fun htrue => absurd htrue htiles⟩

theorem crossing_phaseN (hprev : log.prevRb = some a) (hab : a ≤ b) (ph : ℕ) :
    0 < (crossing log b).phaseN ph ↔
      0 < (log.closeRecording b).phaseN ph ∧ (log.passLen = 0 ∨ log.passLen = b - a) := by
  have hclosed : (log.closeRecording b).prevRb = some a ∧
      (log.closeRecording b).passLen = log.passLen := by
    rw [ResLog.closeRecording]
    split
    · dsimp only
      split
      · exact ⟨hprev, rfl⟩
      · exact ⟨hprev, rfl⟩
    · exact ⟨hprev, rfl⟩
  rw [crossing, ResLog.lengthLaw]
  dsimp only
  rw [hclosed.1, hclosed.2]
  dsimp only
  rw [LaneGrid.wrappingSub, if_pos hab]
  split
  · rename_i hzero
    exact (and_iff_left (Or.inl hzero)).symm
  · rename_i hpos
    split
    · rename_i hne
      exact ⟨fun h => absurd h (Nat.lt_irrefl 0), fun h => absurd (h.2.resolve_left hpos).symm hne⟩
    · rename_i hsame
      exact (and_iff_left (Or.inr (not_not.mp hsame).symm)).symm

/-- The script that a log replays from a boundary. -/
def played (log : ResLog) (rb : ℕ) : List (ℕ × ℕ) :=
  shifted rb ((log.segs.drop log.rpNext).take (log.rpEnd - log.rpNext))

/-- What a run of calls makes of the scripts. -/
structure ScriptLaw (l n : ℕ) (log : ResLog) (cs : List Call) : Prop where
  /-- A recorded phase is sealed if it has a segment and its segments hold every position of the
  lane's own between the boundaries once, and no other. -/
  closed : ∀ (before mid : List Call) (a b : ℕ),
    cs = before ++ .onBoundary a :: (mid ++ [.onBoundary b]) → (∀ rb, .onBoundary rb ∉ mid) →
    (run log (before ++ .onBoundary a :: mid)).recording = true →
    (0 < ((run log (before ++ .onBoundary a :: mid)).closeRecording b).phaseN
        (run log (before ++ .onBoundary a :: mid)).phase ↔
      segsOf mid ≠ [] ∧ Exact (OwnSpan l n) a b (segsOf mid))
  /-- The script stands behind the boundary if the pass has the learned length, or none is
  learned. -/
  stands : ∀ (before mid : List Call) (a b : ℕ),
    cs = before ++ .onBoundary a :: (mid ++ [.onBoundary b]) → (∀ rb, .onBoundary rb ∉ mid) →
    (run log (before ++ .onBoundary a :: mid)).recording = true →
    (0 < (run log cs).phaseN (run log (before ++ .onBoundary a :: mid)).phase ↔
      (segsOf mid ≠ [] ∧ Exact (OwnSpan l n) a b (segsOf mid)) ∧
        ((run log (before ++ .onBoundary a :: mid)).passLen = 0 ∨
          (run log (before ++ .onBoundary a :: mid)).passLen = b - a))
  /-- A replayed script again holds exactly the lane's own positions of the new pass, and crosses
  no chunk end. -/
  replayed : ∀ (before : List Call) (rb : ℕ), cs = before ++ [.onBoundary rb] →
    (run log cs).replaying = true →
    Exact (OwnSpan l n) rb (rb + (run log cs).passLen) (played (run log cs) rb) ∧
      ∀ t ∈ played (run log cs) rb, Inside l n t.1 t.2

theorem run_snoc (log : ResLog) (cs : List Call) (d : Call) :
    run log (cs ++ [d]) = call (run log cs) d := by
  rw [run, List.foldl_append]
  rfl

theorem split_snoc (before mid : List Call) (d e : Call) :
    before ++ d :: (mid ++ [e]) = (before ++ d :: mid) ++ [e] := by
  rw [List.append_assoc, List.cons_append]

/-- At the end of a recording the ghost holds the boundary and the segments of the pass. -/
theorem Inv.recorded (hl : l < n) (hn : n * chunk ≤ reslogPhases)
    (h : Inv l n 0 (none, []) log) {before mid : List Call}
    (hord : Ordered l n 0 (before ++ .onBoundary a :: (mid ++ [.onBoundary b])))
    (hmid : ∀ rb, .onBoundary rb ∉ mid) :
    ∃ c, Inv l n c (some a, segsOf mid) (ScriptRuns.run log (before ++ .onBoundary a :: mid)) ∧
      c ≤ b := by
  rw [split_snoc] at hord
  obtain ⟨c, hc, hle⟩ := h.run hl hn hord
  have hghost : (before ++ Call.onBoundary a :: mid).foldl Ghost.call (none, []) =
      (some a, segsOf mid) := by
    rw [List.foldl_append, List.foldl_cons, ghost_between hmid]
    rfl
  exact ⟨c, hghost ▸ hc, hle.1⟩

/-- Over every run in stream order, scripts are sealed and replayed only if they cover the lane's
share of a pass. -/
theorem script_law (enabled audit : Bool) (l n : ℕ) (hl : l < n) (log : ResLog)
    (hnew : ResLog.new enabled audit n = some log) (cs : List Call) (hord : Ordered l n 0 cs) :
    ScriptLaw l n (log.setLane l) cs := by
  obtain ⟨hn, hinv⟩ := new_inv (l := l) hnew
  constructor
  · rintro before mid a b rfl hmid hrec
    obtain ⟨c, hc, hle⟩ := hinv.recorded hl hn hord hmid
    exact hc.close_iff hl hn hle hrec
  · rintro before mid a b rfl hmid hrec
    obtain ⟨c, hc, hle⟩ := hinv.recorded hl hn hord hmid
    rw [← hc.close_iff hl hn hle hrec, ← crossing_phaseN hc.prev ((hc.after a rfl).1.trans hle),
      split_snoc, run_snoc]
    exact (hc.onBoundary hl hn hle).kept _
  · rintro before rb rfl hon
    obtain ⟨c, hc, hle⟩ := hinv.run hl hn hord
    rw [run_snoc] at hon ⊢
    have hexact := exact_of_tiled ((hc.onBoundary hl hn hle.1).plays hon).2
    exact ⟨hexact.2, hexact.1⟩

/-- The first lane of two records a pass and replays it. -/
theorem script_law_two : ∃ log, ResLog.new true false 2 = some log ∧
    ScriptLaw 0 2 (log.setLane 0)
      [.onBoundary 0, .pushSeg 0 512 7, .onBoundary 1024, .noteEmitted 512 7, .onBoundary 2048] :=
  ⟨_, rfl, script_law true false 0 2 (by decide) _ rfl _
    ⟨Nat.zero_le _, Nat.zero_le _, ⟨by decide, rfl, by decide⟩, by decide, by decide, trivial⟩⟩

/-- In a pass that lies in a foreign chunk the lane has no position of its own: no segment covers
its share, and the phase is not sealed. -/
theorem empty_share_not_sealed :
    ∃ log, ResLog.new true false 2 = some log ∧
      Ordered 0 2 0 [.onBoundary 512, .onBoundary 600] ∧
      (run (log.setLane 0) [.onBoundary 512]).recording = true ∧
      Exact (OwnSpan 0 2) 512 600 (segsOf []) ∧
      ((run (log.setLane 0) [.onBoundary 512]).closeRecording 600).phaseN
        (run (log.setLane 0) [.onBoundary 512]).phase = 0 ∧
      (run (log.setLane 0) [.onBoundary 512, .onBoundary 600]).phaseN
        (run (log.setLane 0) [.onBoundary 512]).phase = 0 := by
  refine ⟨_, rfl, ?_, rfl, ?_, rfl, rfl⟩
  · exact ⟨Nat.zero_le _, by decide, trivial⟩
  · intro p
    rw [if_neg]
    · rfl
    · rintro ⟨hown, hlo, hhi⟩
      rw [OwnSpan, Own, chunk] at hown
      omega

end HftProj.Testkit.ScriptRuns
