import HftProj.Lib.Tiling
import HftProj.Testkit.OrderedFold

/-!
# The fold keeps the order of submission

What stands between the fold's cursor and the submission frontier is shared out between the
lanes' rings and the inline chunks. At every place the next position is in exactly one of
them, and the journal stands for the chain of the oldest pass that is not completed.
-/

namespace HftProj.Testkit.OrderedFold

open HftProj.Lib.Tiling (Same Covers)
open HftProj.Testkit.RxSubmit (chunk rxChunkCap)

variable {E : Stream} {s : Sink}

/-! ## Positions -/

namespace Stream

theorem bound_succ (i : ℕ) : E.bound (i + 1) = E.bound i + E.passSpans i := by
  simp [bound, List.range_succ]

theorem bound_mono {i j : ℕ} (h : i ≤ j) : E.bound i ≤ E.bound j := by
  induction h with
  | refl => exact Nat.le_refl _
  | step _ ih =>
      rw [Nat.succ_eq_add_one, bound_succ]
      exact Nat.le_add_right_of_le ih

@[simp] theorem length_values (lo hi : ℕ) : (E.values lo hi).length = hi - lo := by
  simp [values]

@[simp] theorem values_self (lo : ℕ) : E.values lo lo = [] := by
  simp [values]

theorem values_append {lo mid hi : ℕ} (h : lo ≤ mid) (h' : mid ≤ hi) :
    E.values lo mid ++ E.values mid hi = E.values lo hi := by
  have hlen : hi - lo = (mid - lo) + (hi - mid) := by omega
  have hmid : mid = lo + (mid - lo) := by omega
  simp only [values, ← List.map_append]
  rw [hlen, ← List.range'_append_1, ← hmid]

theorem values_snoc {lo hi : ℕ} (h : lo ≤ hi) :
    E.values lo hi ++ [E.value hi] = E.values lo (hi + 1) := by
  rw [← values_append h (Nat.le_succ hi)]
  simp [values]

/-- The chain of a pass up to a position. -/
def hashed (E : Stream) (i pos : ℕ) : U64 := (E.values (E.bound i) pos).foldl foldStep spanSeed

/-- The messages of a pass up to a position. -/
def msgsTo (E : Stream) (i pos : ℕ) : ℕ :=
  ((List.range' (E.bound i) (pos - E.bound i)).map E.msgs).sum

theorem hashed_append {i pos k : ℕ} (h : E.bound i ≤ pos) :
    E.hashed i (pos + k) = (E.values pos (pos + k)).foldl foldStep (E.hashed i pos) := by
  rw [hashed, ← values_append h (Nat.le_add_right pos k), List.foldl_append, hashed]

theorem hashed_bound (i : ℕ) : E.hashed i (E.bound i) = spanSeed := by
  simp [hashed]

theorem msgsTo_bound (i : ℕ) : E.msgsTo i (E.bound i) = 0 := by
  simp [msgsTo]

theorem msgsTo_succ {i pos : ℕ} (h : E.bound i ≤ pos) :
    E.msgsTo i (pos + 1) = E.msgsTo i pos + E.msgs pos := by
  have hlen : pos + 1 - E.bound i = (pos - E.bound i) + 1 := by omega
  have hpos : E.bound i + (pos - E.bound i) = pos := by omega
  simp [msgsTo, hlen, List.range'_concat, hpos]

theorem sequential_eq (i : ℕ) :
    E.sequential i = (E.msgsTo i (E.bound (i + 1)), E.hashed i (E.bound (i + 1))) := by
  simp [sequential, msgsTo, hashed, bound_succ]

/-- The record of a pass after its end. -/
def stamp (E : Stream) (i : ℕ) : PassRec := ⟨some (E.bound (i + 1)), E.msgsTo i (E.bound (i + 1))⟩

/-- A position of a chunk that is claimed inline. -/
def Inlined (E : Stream) (p : ℕ) : Prop := E.claimed (p / chunk) = true

variable {start k p lane : ℕ}

theorem Fits.div_eq (h : E.Fits start k) (hle : start ≤ p) (hlt : p < start + k) :
    p / chunk = start / chunk := by
  have hchunk := h.inChunk
  unfold chunk at hchunk ⊢
  omega

/-- A record that starts before a pass's end ends at it or before. -/
theorem Fits.le_bound (h : E.Fits start k) {i : ℕ} (hlt : start < E.bound i) :
    start + k ≤ E.bound i :=
  Nat.le_of_not_lt fun hover => h.pass i ⟨hlt, hover⟩

end Stream

/-! ## The invariant -/

/-- The records of the passes from a first one up to `begun`, the last one open. -/
@[grind =]
def Pending (E : Stream) (begun : ℕ) (isOpen : Bool) : ℕ → List PassRec → Prop
  | i, [] => i = begun ∧ isOpen = false
  | i, p :: rest =>
      (isOpen = true ∧ rest = [] ∧ p.endSpan = none ∧ i + 1 = begun) ∨
        (p = E.stamp i ∧ Pending E begun isOpen (i + 1) rest)

/-- How many passes are completed. -/
def Sink.done (s : Sink) : ℕ := s.harvested.length + s.completed.length

/-- The completed passes have the tuples of a sequential sink, the others are on the ring. -/
def Listed (E : Stream) (s : Sink) : Prop :=
  s.harvested ++ s.completed = (List.range s.done).map E.sequential ∧
    Pending E s.begun s.passOpen s.done s.passes

/-- The journal stands for the chain of the oldest pass in flight. -/
def Chained (E : Stream) (s : Sink) : Prop :=
  s.journal.Clean ∧ (∀ l ∈ s.journal.leaves, l.stop ≤ s.foldPos) ∧
    FoldJournal.chain s.hash s.journal = E.hashed s.done s.foldPos ∧
    E.bound s.done ≤ s.foldPos ∧ s.foldPos ≤ E.bound (s.done + 1) ∧
    s.folded = List.range s.foldPos

/-- The cursor and the frontier. -/
def Clocked (E : Stream) (s : Sink) : Prop :=
  s.foldPos ≤ s.nextSpan ∧ s.nextSpan < s.foldPos + 2 ^ 31 ∧
    s.foldRem = chunk - s.foldPos % chunk ∧ s.submitRem + s.nextSpan % chunk = chunk ∧
    E.bound (s.begun - 1) ≤ s.nextSpan ∧ s.nextSpan ≤ E.bound s.begun ∧
    (s.passOpen = false → s.nextSpan = E.bound s.begun) ∧
    (s.passOpen = true → 0 < s.begun ∧ s.count = E.msgsTo (s.begun - 1) s.nextSpan)

/-- Each lane's ring holds the records of its own positions from the cursor on. -/
def Delivered (E : Stream) (s : Sink) : Prop :=
  ∀ lane, lane < E.nLanes →
    (s.lanes lane).ring = (s.lanes lane).made.map (fun r => E.record r.1 r.2) ∧
      Covers (E.Own lane) E.Fits (s.lanes lane).next s.foldPos (s.lanes lane).made ∧
      ∀ r ∈ (s.lanes lane).made, r.1 + r.2 < s.foldPos + 2 ^ 31

def InlineChunk.seg (q : InlineChunk) : ℕ × ℕ := (q.firstSpan, q.vals.length)

/-- An inline chunk that is complete. -/
def Stream.Sealed (E : Stream) (frontier : ℕ) (q : InlineChunk) : Prop :=
  q.sealed = true ∧ q.vals = E.values q.firstSpan (q.firstSpan + q.vals.length) ∧
    q.firstSpan + q.vals.length ≤ frontier

/-- A claim that takes values reaches up to the frontier, within a chunk and the last pass. -/
def Stream.Growing (E : Stream) (s : Sink) (first : ℕ) : Prop :=
  first + s.pendingLen = s.nextSpan ∧ E.bound (s.begun - 1) ≤ first ∧ E.Inlined first ∧
    first % chunk + s.pendingLen ≤ chunk

/-- The inline ring holds the positions of the claimed chunks from the cursor on. -/
def Claimed (E : Stream) (s : Sink) : Prop :=
  ∃ full, (∀ q ∈ full, E.Sealed s.nextSpan q) ∧
    ((s.curInline = false ∧ s.pendingLen = 0 ∧ s.inlineRing = full ∧
        Covers E.Inlined E.Fits s.nextSpan s.foldPos (full.map InlineChunk.seg)) ∨
      (s.curInline = true ∧ ∃ first, E.Growing s first ∧
        s.inlineRing = full ++ [⟨first, E.values first s.nextSpan, false⟩] ∧
        Covers E.Inlined E.Fits first s.foldPos (full.map InlineChunk.seg)))

/-- Only claimed chunks are marked. -/
def Marked (E : Stream) (s : Sink) : Prop :=
  ∀ m id, s.chunkState m = id + 1 → E.claimed id = true

def Core (E : Stream) (s : Sink) : Prop :=
  Listed E s ∧ Chained E s ∧ Clocked E s ∧ Delivered E s ∧ Claimed E s ∧ Marked E s

/-- The rest of a claimed chunk is claimed before a span of it is submitted. -/
def Controlled (E : Stream) (s : Sink) : Prop :=
  s.winOpen = s.passOpen ∧ (s.curInline = true → s.submitRem ≠ chunk) ∧
    (s.submitRem ≠ chunk → E.Inlined s.nextSpan → s.isInline (s.nextSpan / chunk) = true) ∧
    (s.passOpen = false → s.curInline = true → s.pendingLen = 0) ∧
    (s.ctl = .straddle → s.curInline = false ∧ s.passOpen = true ∧ s.submitRem ≠ chunk ∧
      E.Inlined s.nextSpan) ∧
    (s.ctl = .idle → s.passOpen = true → s.submitRem ≠ chunk → E.Inlined s.nextSpan →
      s.curInline = true) ∧
    (s.ctl = .finish → s.passOpen = false)

/-- No boundary that the fold has reached is left pending. -/
def Settled (s : Sink) : Prop := ∀ e, s.pendingBoundaryEnd = some e → s.foldPos < e

/-! ## Completion -/

namespace Pending

variable {begun i : ℕ} {isOpen : Bool} {ps : List PassRec}

theorem le (h : Pending E begun isOpen i ps) : i + ps.length = begun := by
  induction ps generalizing i with
  | nil => exact h.1
  | cons p rest ih =>
      rcases h with ⟨_, rfl, _, hlast⟩ | ⟨_, hrest⟩
      · exact hlast
      · have hlen := ih hrest
        simp only [List.length_cons]
        omega

theorem snoc (h : Pending E begun false i ps) :
    Pending E (begun + 1) true i (ps ++ [⟨none, 0⟩]) := by
  induction ps generalizing i with
  | nil => exact Or.inl ⟨rfl, rfl, rfl, by rw [h.1]⟩
  | cons p rest ih =>
      rcases h with ⟨hopen, _⟩ | ⟨hp, hrest⟩
      · exact absurd hopen Bool.false_ne_true
      · exact Or.inr ⟨hp, ih hrest⟩

theorem stampPass (h : Pending E begun true i ps) (hnext : s.nextSpan = E.bound begun)
    (hcount : s.count = E.msgsTo (begun - 1) s.nextSpan) :
    Pending E begun false i (s.stampPass ps) := by
  induction ps generalizing i with
  | nil => exact absurd h.2 Bool.false_ne_true.symm
  | cons p rest ih =>
      rcases h with ⟨_, rfl, _, rfl⟩ | ⟨hp, hrest⟩
      · refine Or.inr ⟨?_, rfl, rfl⟩
        rw [Stream.stamp, ← hnext, hcount, Nat.add_sub_cancel]
      · cases rest with
        | nil => exact absurd hrest.2 Bool.false_ne_true.symm
        | cons p' rest => exact Or.inr ⟨hp, ih hrest⟩

end Pending

/-- Completion moves passes and takes the journal along, nothing else. -/
theorem completeFrom_frame (s : Sink) (ps : List PassRec) : ∃ ps' done h J,
    s.completeFrom ps = { s with passes := ps', completed := done, hash := h, journal := J } := by
  induction ps generalizing s with
  | nil => exact ⟨_, _, _, _, rfl⟩
  | cons p rest ih =>
      rw [Sink.completeFrom]
      split
      · exact ⟨_, _, _, _, rfl⟩
      · split
        · obtain ⟨ps', done, h, J, heq⟩ := ih _
          exact ⟨ps', done, h, J, heq⟩
        · exact ⟨_, _, _, _, rfl⟩

theorem completeFrom_books {ps : List PassRec}
    (hdone : s.harvested ++ s.completed = (List.range s.done).map E.sequential)
    (hring : Pending E s.begun s.passOpen s.done ps) (hchain : Chained E s) :
    Listed E (s.completeFrom ps) ∧ Chained E (s.completeFrom ps) ∧ Settled (s.completeFrom ps) := by
  induction ps generalizing s with
  | nil => exact ⟨⟨hdone, hring⟩, hchain, nofun⟩
  | cons p rest ih =>
      rcases hring with ⟨hopen, rfl, hnone, hlast⟩ | ⟨rfl, hrest⟩
      · have heq : s.completeFrom [p] = { s with passes := [p] } := by
          rw [Sink.completeFrom, hnone]
        have hend : Sink.pendingBoundaryEnd { s with passes := [p] } = none := hnone
        rw [heq]
        refine ⟨⟨hdone, Or.inl ⟨hopen, rfl, hnone, hlast⟩⟩, hchain, fun e he => ?_⟩
        rw [hend] at he
        cases he
      · obtain ⟨hclean, hstops, hval, hlo, hhi, hfold⟩ := hchain
        rw [Sink.completeFrom]
        dsimp only [Stream.stamp]
        split
        · next hreached =>
            have hpos : s.foldPos = E.bound (s.done + 1) := Nat.le_antisymm hhi hreached
            obtain ⟨hflush, hempty, hclean'⟩ :
                (s.journal.flushUpto s.hash (E.bound (s.done + 1))).1 =
                    FoldJournal.chain s.hash s.journal ∧
                  (s.journal.flushUpto s.hash (E.bound (s.done + 1))).2.leaves = [] ∧
                  (s.journal.flushUpto s.hash (E.bound (s.done + 1))).2.Clean :=
              FoldJournal.flushUpto_chain hclean (hpos ▸ hstops)
            have hnext (x : ℕ × U64) :
                s.harvested.length + (s.completed ++ [x]).length = s.done + 1 := by
              rw [List.length_append, ← Nat.add_assoc]
              rfl
            apply ih
            · show s.harvested ++ (s.completed ++ [_]) = (List.range (s.harvested.length +
                (s.completed ++ [_]).length)).map E.sequential
              rw [hnext, List.range_succ, List.map_append, ← hdone, List.append_assoc, hflush, hval,
                hpos, List.map_singleton, Stream.sequential_eq]
            · show Pending E s.begun s.passOpen (s.harvested.length + (s.completed ++ [_]).length) _
              rw [hnext]
              exact hrest
            · refine ⟨hclean', by simp [hempty], ?_, ?_, ?_, hfold⟩
              · show FoldJournal.chain _ _ =
                  E.hashed (s.harvested.length + (s.completed ++ [_]).length) s.foldPos
                rw [hnext, hpos, Stream.hashed_bound]
                simp [FoldJournal.chain, hempty]
              · show E.bound (s.harvested.length + (s.completed ++ [_]).length) ≤ s.foldPos
                rw [hnext, hpos]
              · show s.foldPos ≤ E.bound (s.harvested.length + (s.completed ++ [_]).length + 1)
                rw [hnext, hpos]
                exact Stream.bound_mono (Nat.le_succ _)
        · next hbefore =>
            refine ⟨⟨hdone, Or.inr ⟨rfl, hrest⟩⟩, ⟨hclean, hstops, hval, hlo, hhi, hfold⟩, ?_⟩
            intro e he
            obtain rfl := Option.some_inj.mp he
            exact Nat.lt_of_not_le hbefore

theorem Core.complete (h : Core E s) :
    Core E s.completeBoundaries ∧ Settled s.completeBoundaries := by
  obtain ⟨⟨hdone, hring⟩, hchain, hclock, hlanes, hclaims, hmarks⟩ := h
  obtain ⟨hlisted, hchain', hsettled⟩ := completeFrom_books hdone hring hchain
  obtain ⟨ps, done, h, J, heq⟩ := completeFrom_frame s s.passes
  refine ⟨⟨hlisted, hchain', ?_⟩, hsettled⟩
  rw [Sink.completeBoundaries, heq]
  exact ⟨hclock, hlanes, hclaims, hmarks⟩

theorem Controlled.complete (h : Controlled E s) : Controlled E s.completeBoundaries := by
  obtain ⟨ps, done, hash, J, heq⟩ := completeFrom_frame s s.passes
  rw [Sink.completeBoundaries, heq]
  exact h

@[simp] theorem completeBoundaries_foldPos (s : Sink) :
    s.completeBoundaries.foldPos = s.foldPos := by
  obtain ⟨ps, done, hash, J, heq⟩ := completeFrom_frame s s.passes
  rw [Sink.completeBoundaries, heq]

@[simp] theorem completeBoundaries_ctl (s : Sink) : s.completeBoundaries.ctl = s.ctl := by
  obtain ⟨ps, done, hash, J, heq⟩ := completeFrom_frame s s.passes
  rw [Sink.completeBoundaries, heq]

@[simp] theorem completeBoundaries_lanes (s : Sink) :
    s.completeBoundaries.lanes = s.lanes := by
  obtain ⟨ps, done, hash, J, heq⟩ := completeFrom_frame s s.passes
  rw [Sink.completeBoundaries, heq]

/-! ## One stretch is folded -/

/-- What the fold has at the cursor is behind the oldest boundary in flight. -/
theorem Core.fold_le_bound (h : Core E s) (hset : Settled s) (hlt : s.foldPos < s.nextSpan) :
    s.foldPos < E.bound (s.done + 1) := by
  obtain ⟨⟨_, hring⟩, ⟨_, _, _, hlo, _⟩, ⟨_, _, _, _, _, hend, _⟩, _⟩ := h
  cases hps : s.passes with
  | nil =>
      rw [hps] at hring
      rw [← hring.1] at hend
      omega
  | cons p rest =>
      rw [hps] at hring
      rcases hring with ⟨_, _, _, hlast⟩ | ⟨rfl, _⟩
      · rw [hlast]
        exact Nat.lt_of_lt_of_le hlt hend
      · exact hset _ (by rw [Sink.pendingBoundaryEnd, hps]; rfl)

/-- A boundary that is stamped is the end of the oldest pass in flight. -/
theorem Core.pendingEnd (h : Core E s) {e : ℕ} (he : s.pendingBoundaryEnd = some e) :
    e = E.bound (s.done + 1) := by
  obtain ⟨⟨_, hring⟩, _⟩ := h
  rw [Sink.pendingBoundaryEnd] at he
  cases hps : s.passes with
  | nil =>
      rw [hps] at he
      cases he
  | cons p rest =>
      rw [hps] at hring he
      rcases hring with ⟨_, _, hnone, _⟩ | ⟨rfl, _⟩
      · exact absurd (hnone.symm.trans he) nofun
      · exact (Option.some_inj.mp he).symm

theorem advanceFold_frame (nLanes k : ℕ) (hrem : s.foldRem = chunk - s.foldPos % chunk) (hk : 0 < k)
    (hle : k ≤ s.foldRem) : ∃ lane, s.advanceFold nLanes k =
      { s with foldPos := s.foldPos + k, foldRem := chunk - (s.foldPos + k) % chunk,
               foldLane := lane } := by
  have hrem' : (if s.foldRem - k = 0 then chunk else s.foldRem - k) =
      chunk - (s.foldPos + k) % chunk := by
    unfold chunk at hrem ⊢
    split <;> omega
  rw [Sink.advanceFold]
  split
  · next hzero =>
      rw [if_pos hzero] at hrem'
      exact ⟨_, by rw [← hrem']⟩
  · next hmore =>
      rw [if_neg hmore] at hrem'
      exact ⟨_, by rw [← hrem']⟩

/-- The chain behind some folded positions. -/
theorem Chained.advance {h : U64} {J : FoldJournal} {k rem lane : ℕ} {ring : List InlineChunk}
    {lanes : ℕ → Lane} (hc : Chained E s) (hclean : J.Clean)
    (hstops : ∀ l ∈ J.leaves, l.stop ≤ s.foldPos + k)
    (hval : FoldJournal.chain h J = (E.values s.foldPos (s.foldPos + k)).foldl foldStep
      (FoldJournal.chain s.hash s.journal))
    (hle : s.foldPos + k ≤ E.bound (s.done + 1)) :
    Chained E { s with
      hash := h, journal := J, foldPos := s.foldPos + k, foldRem := rem, foldLane := lane,
      inlineRing := ring, lanes := lanes, folded := s.folded ++ List.range' s.foldPos k } := by
  obtain ⟨_, _, hchain, hlo, _, hfold⟩ := hc
  refine ⟨hclean, hstops, ?_, Nat.le_add_right_of_le hlo, hle, ?_⟩
  · rw [hval, hchain]
    exact (Stream.hashed_append hlo).symm
  · show s.folded ++ List.range' s.foldPos k = List.range (s.foldPos + k)
    rw [hfold, List.range_eq_range', List.range_eq_range', ← List.range'_append_1, Nat.zero_add]

theorem foldValue_frame {v : U64} {pos : ℕ} (hclean : s.journal.Clean)
    (hstops : ∀ l ∈ s.journal.leaves, l.stop ≤ pos) :
    ∃ h J, s.foldValue v (pos + 1) = { s with hash := h, journal := J } ∧ J.Clean ∧
      (∀ l ∈ J.leaves, l.stop ≤ pos + 1) ∧
      FoldJournal.chain h J = foldStep (FoldJournal.chain s.hash s.journal) v := by
  have hstops' : ∀ l ∈ s.journal.leaves, l.stop ≤ pos + 1 :=
    fun l hl => Nat.le_succ_of_le (hstops l hl)
  rw [Sink.foldValue]
  split
  · exact ⟨_, _, rfl, FoldJournal.push_clean hclean _ _ _, FoldJournal.push_stop _ _ hstops',
      (FoldJournal.push_chain hclean _ _ _).trans (applyLeaf_term _ _)⟩
  · next htree =>
      have hnil : s.journal.leaves = [] := hclean (by simpa using htree)
      exact ⟨_, _, rfl, hclean, hstops', by simp [FoldJournal.chain, hnil]⟩

theorem foldValues_frame (vs : List U64) {pos : ℕ} (hclean : s.journal.Clean)
    (hstops : ∀ l ∈ s.journal.leaves, l.stop ≤ pos) :
    ∃ h J, s.foldValues vs pos = { s with hash := h, journal := J } ∧ J.Clean ∧
      (∀ l ∈ J.leaves, l.stop ≤ pos + vs.length) ∧
      FoldJournal.chain h J = vs.foldl foldStep (FoldJournal.chain s.hash s.journal) := by
  induction vs generalizing s pos with
  | nil => exact ⟨_, _, rfl, hclean, hstops, rfl⟩
  | cons v vs ih =>
      obtain ⟨h, J, heq, hclean', hstops', hval⟩ := foldValue_frame (v := v) hclean hstops
      rw [Sink.foldValues, heq]
      obtain ⟨h', J', heq', hclean'', hstops'', hval'⟩ :=
        ih (s := { s with hash := h, journal := J }) hclean' hstops'
      refine ⟨h', J', heq', hclean'', ?_, ?_⟩
      · rw [List.length_cons, Nat.add_comm vs.length, ← Nat.add_assoc]
        exact hstops''
      · rw [hval', List.foldl_cons, ← hval]

/-- The oldest inline chunk, if it is sealed, and what its fold leaves. -/
theorem Claimed.head (h : Claimed E s) {q : InlineChunk} {rest : List InlineChunk}
    (hring : s.inlineRing = q :: rest) (hsealed : q.sealed = true) :
    E.Sealed s.nextSpan q ∧ E.Inlined q.firstSpan ∧ E.Fits q.firstSpan q.vals.length ∧
      Same E.Inlined s.foldPos q.firstSpan ∧
      Claimed E { s with inlineRing := rest, foldPos := q.firstSpan + q.vals.length } := by
  obtain ⟨full, hfull, ⟨hcur, hlen, hall, hcov⟩ | ⟨hcur, first, hgrow, hall, hcov⟩⟩ := h
  · rw [hring] at hall
    subst hall
    obtain ⟨hsame, hmem, hfits, hrest⟩ := hcov
    exact ⟨hfull q List.mem_cons_self, hmem, hfits, hsame, rest,
      fun q' hq' => hfull q' (List.mem_cons_of_mem _ hq'), Or.inl ⟨hcur, hlen, rfl, hrest⟩⟩
  · cases full with
    | nil =>
        obtain ⟨rfl, -⟩ := List.cons.inj (hring.symm.trans hall)
        exact absurd hsealed Bool.false_ne_true
    | cons q' full =>
        obtain ⟨rfl, rfl⟩ := List.cons.inj (hring.symm.trans hall)
        obtain ⟨hsame, hmem, hfits, hrest⟩ := hcov
        exact ⟨hfull q List.mem_cons_self, hmem, hfits, hsame, full,
          fun q' hq' => hfull q' (List.mem_cons_of_mem _ hq'),
          Or.inr ⟨hcur, first, hgrow, rfl, hrest⟩⟩

theorem Delivered.advance {k : ℕ} (h : Delivered E s)
    (hown : ∀ lane, lane < E.nLanes → ∀ p, s.foldPos ≤ p → p < s.foldPos + k → ¬ E.Own lane p) :
    Delivered E { s with foldPos := s.foldPos + k } := by
  intro lane hlane
  obtain ⟨hring, hcov, hlag⟩ := h lane hlane
  have hsame := Same.of_between (hown lane hlane) (Nat.le_add_right _ _)
  refine ⟨hring, hcov.of_same hsame.symm, fun r hr => ?_⟩
  exact Nat.lt_of_lt_of_le (hlag r hr) (Nat.add_le_add_right (Nat.le_add_right _ _) _)

theorem Clocked.advance {k : ℕ} (h : Clocked E s) (hle : s.foldPos + k ≤ s.nextSpan) :
    Clocked E { s with
      foldPos := s.foldPos + k, foldRem := chunk - (s.foldPos + k) % chunk } := by
  obtain ⟨_, hlag, _, hrest⟩ := h
  refine ⟨hle, ?_, rfl, hrest⟩
  show s.nextSpan < s.foldPos + k + 2 ^ 31
  omega

theorem Core.foldInline (h : Core E s) (hctl : Controlled E s) (hset : Settled s)
    {q : InlineChunk} {rest : List InlineChunk} (hring : s.inlineRing = q :: rest)
    (hsealed : q.sealed = true) (hfirst : q.firstSpan = s.foldPos) :
    ∃ s', s.foldInline E.nLanes q = some s' ∧ Core E s' ∧ Controlled E s' ∧
      s.foldPos < s'.foldPos := by
  obtain ⟨hlisted, hchain, hclock, hlanes, hclaims, hmarks⟩ := id h
  obtain ⟨⟨_, hvals, hbelow⟩, hmem, hfits, _, hrest⟩ := hclaims.head hring hsealed
  rw [hfirst] at hvals hbelow hmem hfits hrest
  have hpos := hfits.pos
  have hin : q.vals.length ≤ s.foldRem := by
    have hchunk := hfits.inChunk
    have hrem : s.foldRem = chunk - s.foldPos % chunk := hclock.2.2.1
    omega
  have hbound : s.foldPos + q.vals.length ≤ E.bound (s.done + 1) :=
    hfits.le_bound (h.fold_le_bound hset (by omega))
  obtain ⟨hash, J, heq, hclean, hstops, hval⟩ :=
    foldValues_frame q.vals hchain.1 hchain.2.1
  have hown : ∀ lane, lane < E.nLanes → ∀ p, s.foldPos ≤ p → p < s.foldPos + q.vals.length →
      ¬ E.Own lane p := by
    rintro lane - p hle hlt ⟨_, hfree⟩
    rw [hfits.div_eq hle hlt, hmem] at hfree
    cases hfree
  rw [Sink.foldInline, if_pos hin, heq]
  dsimp only
  obtain ⟨lane, hadv⟩ := advanceFold_frame (s := { s with
    hash := hash, journal := J, inlineRing := s.inlineRing.tail,
    folded := s.folded ++ List.range' q.firstSpan q.vals.length }) E.nLanes q.vals.length
    hclock.2.2.1 hpos hin
  refine ⟨_, rfl, ?_⟩
  rw [hadv]
  have hcore : Core E { s with
      hash := hash, journal := J, foldPos := s.foldPos + q.vals.length,
      foldRem := chunk - (s.foldPos + q.vals.length) % chunk, foldLane := lane,
      inlineRing := s.inlineRing.tail,
      folded := s.folded ++ List.range' q.firstSpan q.vals.length } := by
    rw [hring, hfirst]
    refine ⟨hlisted, hchain.advance hclean hstops ?_ hbound, hclock.advance hbelow,
      hlanes.advance hown, hrest, hmarks⟩
    rw [hval, ← hvals]
  refine ⟨hcore.complete.1, Controlled.complete hctl, ?_⟩
  rw [completeBoundaries_foldPos]
  exact Nat.lt_add_of_pos_right hpos

/-! ## One record is folded -/

@[simp] theorem record_aux (start : ℕ) {k : ℕ} (hk : k ≤ chunk) :
    (E.record start k).aux.toNat = k := by
  unfold chunk at hk
  rw [Stream.record, BitVec.toNat_ofNat, Nat.mod_eq_of_lt (by omega)]

/-- The serial comparison decides which end is ahead, within half the ring of ids. -/
theorem beyond_record {start k : ℕ} (hlo : start + k < s.nextSpan + 2 ^ 31)
    (hhi : s.nextSpan < start + k + 2 ^ 31) :
    s.beyond (E.record start k) = decide (s.nextSpan < start + k) := by
  have hzero : (0 : BitVec 32).toNat = 0 := rfl
  rw [Sink.beyond, decide_eq_decide, ← BitVec.toNat_inj.ne, hzero]
  simp only [Stream.record, BitVec.toNat_sub, BitVec.toNat_add, BitVec.toNat_ofNat]
  omega

theorem Fits.le_chunk {start k : ℕ} (h : E.Fits start k) : k ≤ chunk :=
  Nat.le_trans (Nat.le_add_left _ _) h.inChunk

/-- The first record of the cursor's lane starts at the cursor. -/
theorem Delivered.head (h : Delivered E s) {lane : ℕ} (hlane : lane < E.nLanes)
    (hown : E.Own lane s.foldPos) {r : Res} {rs : List Res}
    (hring : (s.lanes lane).ring = r :: rs) :
    ∃ k made, r = E.record s.foldPos k ∧ (s.lanes lane).made = (s.foldPos, k) :: made ∧
      rs = made.map (fun r => E.record r.1 r.2) ∧ E.Fits s.foldPos k ∧
      s.foldPos + k < s.foldPos + 2 ^ 31 ∧
      Covers (E.Own lane) E.Fits (s.lanes lane).next (s.foldPos + k) made := by
  obtain ⟨hmap, hcov, hlag⟩ := h lane hlane
  cases hmade : (s.lanes lane).made with
  | nil => simp [hmade, hring] at hmap
  | cons seg made =>
      rw [hmade] at hmap hcov hlag
      obtain ⟨hr, hrs⟩ := List.cons.inj (hring.symm.trans hmap)
      obtain ⟨start, k⟩ := seg
      obtain ⟨hstart, hfits, hrest⟩ := hcov.head hown
      obtain rfl : start = s.foldPos := hstart
      exact ⟨k, made, hr, rfl, hrs, hfits, hlag _ List.mem_cons_self, hrest⟩

theorem Delivered.take {k lane : ℕ} {made : List (ℕ × ℕ)} (h : Delivered E s)
    (hown : E.Own lane s.foldPos) (hfits : E.Fits s.foldPos k)
    (hmade : (s.lanes lane).made = (s.foldPos, k) :: made)
    (hcov : Covers (E.Own lane) E.Fits (s.lanes lane).next (s.foldPos + k) made) :
    Delivered E { s with
      foldPos := s.foldPos + k,
      lanes := Function.update s.lanes lane { (s.lanes lane) with
        ring := (s.lanes lane).ring.tail, made := (s.lanes lane).made.tail } } := by
  intro other hother
  obtain ⟨hring, hcov', hlag⟩ := h other hother
  by_cases heq : other = lane
  · subst heq
    simp only [Function.update_self, hmade, List.tail_cons, hring, List.map_cons, true_and]
    refine ⟨hcov, fun r hr => ?_⟩
    have hold := hlag r (hmade ▸ List.mem_cons_of_mem _ hr)
    omega
  · simp only [Function.update_of_ne heq]
    refine ⟨hring, hcov'.of_same (Same.symm (Same.of_between ?_ (Nat.le_add_right _ _))), ?_⟩
    · rintro p hle hlt ⟨hmod, -⟩
      rw [hfits.div_eq hle hlt, hown.1] at hmod
      exact heq hmod.symm
    · intro r hr
      have hold := hlag r hr
      omega

theorem Claimed.advance {k : ℕ} (h : Claimed E s)
    (hfree : ∀ p, s.foldPos ≤ p → p < s.foldPos + k → ¬ E.Inlined p) :
    Claimed E { s with foldPos := s.foldPos + k } := by
  have hsame := (Same.of_between hfree (Nat.le_add_right _ _)).symm
  obtain ⟨full, hfull, ⟨hcur, hlen, hall, hcov⟩ | ⟨hcur, first, hgrow, hall, hcov⟩⟩ := h
  · exact ⟨full, hfull, Or.inl ⟨hcur, hlen, hall, hcov.of_same hsame⟩⟩
  · exact ⟨full, hfull, Or.inr ⟨hcur, first, hgrow, hall, hcov.of_same hsame⟩⟩

/-- A record that ends below the frontier passes the assertions and is folded. -/
theorem Core.takeRecord (h : Core E s) (hctl : Controlled E s) (hset : Settled s) {lane : ℕ}
    (hlane : lane < E.nLanes) (hown : E.Own lane s.foldPos) {r : Res} {rs : List Res}
    (hring : (s.lanes lane).ring = r :: rs) (hend : s.beyond r = false) :
    s.accepts r = true ∧ ∃ t, (s.takeRecord lane r).advanceFold E.nLanes r.aux.toNat = t ∧
      Core E t ∧ Controlled E t ∧ s.foldPos < t.foldPos ∧ (t.lanes lane).ring = rs ∧
      t.passes = s.passes ∧ (s.foldRem - r.aux.toNat ≠ 0 → E.Own lane t.foldPos) := by
  obtain ⟨hlisted, hchain, hclock, hlanes, hclaims, hmarks⟩ := id h
  obtain ⟨k, made, rfl, hmade, hrs, hfits, hlag, hcov⟩ := hlanes.head hlane hown hring
  obtain ⟨hle, hahead, hrem, _⟩ := id hclock
  have hpos := hfits.pos
  have haux : (E.record s.foldPos k).aux.toNat = k := record_aux _ (Fits.le_chunk hfits)
  have hbelow : s.foldPos + k ≤ s.nextSpan := by
    rw [beyond_record (by omega) (by omega)] at hend
    exact Nat.le_of_not_lt (of_decide_eq_false hend)
  have hin : k ≤ s.foldRem := by
    have hchunk := hfits.inChunk
    omega
  have hbound : s.foldPos + k ≤ E.bound (s.done + 1) :=
    hfits.le_bound (h.fold_le_bound hset (by omega))
  have hfree : ∀ p, s.foldPos ≤ p → p < s.foldPos + k → ¬ E.Inlined p := by
    intro p hle hlt hclaimed
    have hcontra := hown.2
    rw [← hfits.div_eq hle hlt, hclaimed] at hcontra
    cases hcontra
  have hseg : applyLeaf (FoldJournal.chain s.hash s.journal)
      ((E.record s.foldPos k).aux, (E.record s.foldPos k).value) =
      (E.values s.foldPos (s.foldPos + k)).foldl foldStep (FoldJournal.chain s.hash s.journal) := by
    have hcomp := applyLeaf_composeB (FoldJournal.chain s.hash s.journal)
      (E.values s.foldPos (s.foldPos + k)) (by simp; omega)
    rw [Stream.length_values, Nat.add_sub_cancel_left] at hcomp
    exact hcomp
  have htake : s.takeRecord lane (E.record s.foldPos k) = { s with
      hash := (s.journal.push s.hash (E.record s.foldPos k).aux (E.record s.foldPos k).value
        (s.foldPos + k)).1,
      journal := (s.journal.push s.hash (E.record s.foldPos k).aux (E.record s.foldPos k).value
        (s.foldPos + k)).2,
      folded := s.folded ++ List.range' s.foldPos k,
      lanes := Function.update s.lanes lane { (s.lanes lane) with
        ring := (s.lanes lane).ring.tail, made := (s.lanes lane).made.tail } } := by
    simp only [Sink.takeRecord, hmade, List.headD_cons, haux]
  rw [haux]
  constructor
  · rw [Sink.accepts, haux, Bool.and_eq_true]
    refine ⟨decide_eq_true ⟨hpos, hin, rfl⟩, ?_⟩
    cases hpend : s.pendingBoundaryEnd with
    | none => rfl
    | some e => exact decide_eq_true (h.pendingEnd hpend ▸ hbound)
  · obtain ⟨fl, hadv⟩ := advanceFold_frame (s := s.takeRecord lane (E.record s.foldPos k))
      E.nLanes k (htake ▸ hrem) hpos (htake ▸ hin)
    refine ⟨_, hadv, ?_⟩
    rw [htake]
    refine ⟨⟨hlisted, hchain.advance (FoldJournal.push_clean hchain.1 _ _ _)
        (FoldJournal.push_stop _ _ ?_) ?_ hbound, hclock.advance hbelow,
        hlanes.take hown hfits hmade hcov, hclaims.advance hfree, hmarks⟩, hctl,
        Nat.lt_add_of_pos_right hpos, ?_, rfl, ?_⟩
    · exact fun l hl => Nat.le_add_right_of_le (hchain.2.1 l hl)
    · rw [FoldJournal.push_chain hchain.1, hseg]
    · simp [hring]
    · intro hmore
      have hdiv : (s.foldPos + k) / chunk = s.foldPos / chunk := by
        unfold chunk at hrem ⊢
        omega
      show E.Own lane (s.foldPos + k)
      rw [Stream.Own, hdiv]
      exact hown

/-! ## The fold's loop -/

theorem drainRecords_core {lane : ℕ} (hlane : lane < E.nLanes) {nextEnd : Option ℕ} {rs : List Res}
    (h : Core E s) (hctl : Controlled E s) (hset : Settled s) (hown : E.Own lane s.foldPos)
    (hring : (s.lanes lane).ring = rs) (hnext : nextEnd = s.pendingBoundaryEnd) :
    ∃ t, Sink.drainRecords E.nLanes lane s nextEnd rs = some t ∧ Core E t ∧ Controlled E t ∧
      s.foldPos ≤ t.foldPos ∧
      ∀ r rest, rs = r :: rest → s.beyond r = false → s.foldPos < t.foldPos := by
  induction rs generalizing s nextEnd with
  | nil => exact ⟨s, rfl, h, hctl, Nat.le_refl _, nofun⟩
  | cons r rs ih =>
      rw [Sink.drainRecords]
      cases hend : s.beyond r with
      | true =>
          refine ⟨s, if_pos rfl, h, hctl, Nat.le_refl _, fun r' rest heq hend' => ?_⟩
          rw [← (List.cons.inj heq).1, hend] at hend'
          cases hend'
      | false =>
          obtain ⟨hacc, t, ht, hcore, hctl', hlt, hring', hpasses, hown'⟩ :=
            h.takeRecord hctl hset hlane hown hring hend
          have hnext' : nextEnd = t.pendingBoundaryEnd := by
            rw [hnext, Sink.pendingBoundaryEnd, Sink.pendingBoundaryEnd, hpasses]
          rw [if_neg Bool.false_ne_true, if_pos hacc, ht]
          dsimp only
          split
          · exact ⟨t, rfl, hcore, hctl', Nat.le_of_lt hlt, fun _ _ _ _ => hlt⟩
          · next hmore =>
              split
              · obtain ⟨u, hu, hcore', hctl'', hle, _⟩ :=
                  ih hcore.complete.1 hctl'.complete hcore.complete.2
                    (by simpa using hown' hmore) (by simpa using hring') rfl
                rw [completeBoundaries_foldPos] at hle
                exact ⟨u, hu, hcore', hctl'', by omega, fun _ _ _ _ => by omega⟩
              · next hbefore =>
                  have hset' : Settled t := by
                    intro e he
                    rw [hnext', he] at hbefore
                    simpa [Sink.reached] using hbefore
                  obtain ⟨u, hu, hcore', hctl'', hle, _⟩ :=
                    ih hcore hctl' hset' (hown' hmore) hring' hnext'
                  exact ⟨u, hu, hcore', hctl'', by omega, fun _ _ _ _ => by omega⟩

/-- A claim that takes values has not left its chunk. -/
theorem Clocked.div_eq (h : Clocked E s) {first : ℕ} (hgrow : E.Growing s first)
    (hmid : s.submitRem ≠ chunk) : s.nextSpan / chunk = first / chunk := by
  obtain ⟨hend, _, _, hchunk⟩ := hgrow
  have hrem := h.2.2.2.1
  unfold chunk at hchunk hmid hrem ⊢
  omega

/-- In a claimed chunk the fold has a sealed chunk at its cursor, or the claim takes values. -/
theorem Core.growing_of_waits (h : Core E s) (hctl : Controlled E s)
    (hlt : s.foldPos < s.nextSpan) (hmem : E.Inlined s.foldPos)
    (hwait : ∀ q rest, s.inlineRing = q :: rest → ¬ (q.sealed = true ∧ q.firstSpan = s.foldPos)) :
    s.curInline = true ∧ s.pendingLen ≠ 0 ∧ s.isInline (s.foldPos / chunk) = true := by
  obtain ⟨_, _, hclock, _, ⟨full, hfull, hclaims⟩, _⟩ := h
  cases full with
  | cons q rest =>
      have hhead : ∃ rest', s.inlineRing = q :: rest' := by
        obtain ⟨_, _, hall, _⟩ | ⟨_, first, _, hall, _⟩ := hclaims
        · exact ⟨rest, hall⟩
        · exact ⟨_, hall⟩
      have hfirst : q.firstSpan = s.foldPos := by
        obtain ⟨_, _, _, hcov⟩ | ⟨_, first, _, _, hcov⟩ := hclaims
        · exact (hcov.1.eq hmem hcov.2.1).symm
        · exact (hcov.1.eq hmem hcov.2.1).symm
      obtain ⟨rest', hring⟩ := hhead
      exact absurd ⟨(hfull q List.mem_cons_self).1, hfirst⟩ (hwait q rest' hring)
  | nil =>
      obtain ⟨_, _, _, hcov⟩ | ⟨hcur, first, hgrow, _, hcov⟩ := hclaims
      · exact absurd rfl (Covers.ne_nil hcov hmem hlt)
      · obtain rfl : s.foldPos = first := Same.eq hcov hmem hgrow.2.2.1
        have hmid : s.submitRem ≠ chunk := hctl.2.1 hcur
        have hdiv := hclock.div_eq hgrow hmid
        have hlen := hgrow.1
        have hmark := hctl.2.2.1 hmid (by rw [Stream.Inlined, hdiv]; exact hmem)
        rw [hdiv] at hmark
        exact ⟨hcur, by omega, hmark⟩

/-- The lanes have evaluated every position below the frontier. -/
def Sink.Evaluated (E : Stream) (s : Sink) : Prop :=
  ∀ lane, lane < E.nLanes → ∀ p, p < s.nextSpan → E.Own lane p → p < (s.lanes lane).next

theorem Core.foldLanePart (h : Core E s) (hctl : Controlled E s) (hset : Settled s)
    (hn : 0 < E.nLanes) (hlt : s.foldPos < s.nextSpan)
    (hwait : ∀ q rest, s.inlineRing = q :: rest → ¬ (q.sealed = true ∧ q.firstSpan = s.foldPos)) :
    ∃ t, s.foldLanePart E.nLanes = some t ∧ Core E t ∧ Controlled E t ∧ s.foldPos ≤ t.foldPos ∧
      (s.passOpen = false → s.Evaluated E → s.foldPos < t.foldPos) := by
  rw [Sink.foldLanePart]
  cases hin : s.isInline (s.foldPos / chunk) with
  | true =>
      refine ⟨s, if_pos rfl, h, hctl, Nat.le_refl _, fun hclosed _ => ?_⟩
      have hmem : E.Inlined s.foldPos := h.2.2.2.2.2 _ _ (beq_iff_eq.mp hin)
      obtain ⟨hcur, hlen, _⟩ := h.growing_of_waits hctl hlt hmem hwait
      exact absurd (hctl.2.2.2.1 hclosed hcur) hlen
  | false =>
      have hfree : E.claimed (s.foldPos / chunk) = false := by
        by_contra hclaimed
        have hmem : E.Inlined s.foldPos := (Bool.not_eq_false _).mp hclaimed
        rw [(h.growing_of_waits hctl hlt hmem hwait).2.2] at hin
        cases hin
      have hlane : s.foldPos / chunk % E.nLanes < E.nLanes := Nat.mod_lt _ hn
      have hown : E.Own (s.foldPos / chunk % E.nLanes) s.foldPos := ⟨rfl, hfree⟩
      obtain ⟨hlisted, hchain, hclock, hlanes, hclaims, hmarks⟩ := id h
      have hcore : Core E { s with
          foldLane := s.foldPos / chunk % E.nLanes, foldRem := chunk - s.foldPos % chunk } :=
        ⟨hlisted, hchain, ⟨hclock.1, hclock.2.1, rfl, hclock.2.2.2⟩, hlanes, hclaims, hmarks⟩
      rw [if_neg Bool.false_ne_true]
      dsimp only
      split
      · next hempty =>
          refine ⟨_, rfl, hcore, hctl, Nat.le_refl _, fun _ heval => ?_⟩
          obtain ⟨hring, hcov, _⟩ := hlanes _ hlane
          have hmade := hcov.ne_nil hown (heval _ hlane _ hlt hown)
          rw [hempty] at hring
          exact absurd (List.map_eq_nil_iff.mp hring.symm) hmade
      · next hsome =>
          obtain ⟨t, ht, hcore', hctl', hle, hstep⟩ :=
            drainRecords_core hlane hcore hctl hset hown rfl rfl
          refine ⟨t.completeBoundaries, by rw [ht]; rfl, hcore'.complete.1, hctl'.complete,
            by rw [completeBoundaries_foldPos]; exact hle, fun hclosed _ => ?_⟩
          rw [completeBoundaries_foldPos]
          obtain ⟨r, rs, hring⟩ := List.exists_cons_of_ne_nil hsome
          obtain ⟨k, made, rfl, _, _, hfits, hlag, _⟩ := hlanes.head hlane hown hring
          have hend := hclock.2.2.2.2.2.2.1 hclosed
          have hbelow : s.foldPos + k ≤ s.nextSpan :=
            hend ▸ hfits.le_bound (hend ▸ hlt)
          refine hstep _ rs hring ?_
          have hahead := hclock.2.1
          show s.beyond (E.record s.foldPos k) = false
          rw [beyond_record (by omega) (by omega)]
          exact decide_eq_false (Nat.not_lt_of_le hbelow)

/-- One iteration of the fold: no assertion fails, and with the workers done it advances. -/
theorem Core.foldOnce (h : Core E s) (hctl : Controlled E s) (hset : Settled s)
    (hn : 0 < E.nLanes) :
    ∃ t, s.foldOnce E.nLanes = some t ∧ Core E t ∧ Controlled E t ∧ s.foldPos ≤ t.foldPos ∧
      (s.passOpen = false → s.foldPos < s.nextSpan → s.Evaluated E → s.foldPos < t.foldPos) := by
  rw [Sink.foldOnce]
  split
  · next hlt =>
      split
      · next hempty =>
          obtain ⟨t, ht, hcore, hctl', hle, hstep⟩ := h.foldLanePart hctl hset hn hlt
            (fun q rest hring => absurd (hempty.symm.trans hring) nofun)
          exact ⟨t, ht, hcore, hctl', hle, fun hclosed _ => hstep hclosed⟩
      · next q rest hring =>
          split
          · next hat =>
              obtain ⟨t, ht, hcore, hctl', hstep⟩ := h.foldInline hctl hset hring hat.1 hat.2
              exact ⟨t, ht, hcore, hctl', Nat.le_of_lt hstep, fun _ _ _ => hstep⟩
          · next hwait =>
              obtain ⟨t, ht, hcore, hctl', hle, hstep⟩ := h.foldLanePart hctl hset hn hlt
                (fun q' rest' hring' => by
                  obtain ⟨rfl, -⟩ := List.cons.inj (hring.symm.trans hring')
                  exact hwait)
              exact ⟨t, ht, hcore, hctl', hle, fun hclosed _ => hstep hclosed⟩
  · next hdone =>
      exact ⟨s, rfl, h, hctl, Nat.le_refl _, fun _ hlt => absurd hlt hdone⟩

/-! ## Submission -/

@[simp] theorem onNewest_concat (f : InlineChunk → InlineChunk) (ring : List InlineChunk)
    (q : InlineChunk) : Sink.onNewest f (ring ++ [q]) = ring ++ [f q] := by
  induction ring with
  | nil => rfl
  | cons p ring ih =>
      cases ring with
      | nil => rfl
      | cons p' ring => exact congrArg (p :: ·) ih

/-- A claim that holds a span can be sealed: it lies in a chunk and in the last pass. -/
theorem Clocked.fits (h : Clocked E s) {first : ℕ} (hgrow : E.Growing s first)
    (hlen : s.pendingLen ≠ 0) : E.Fits first s.pendingLen := by
  obtain ⟨hend, hlo, _, hchunk⟩ := hgrow
  obtain ⟨_, _, _, _, _, hhi, _⟩ := h
  refine ⟨Nat.pos_of_ne_zero hlen, hchunk, fun i => ?_⟩
  rintro ⟨hstart, hstop⟩
  rcases Nat.lt_or_ge i s.begun with hold | hnew
  · have hmono := Stream.bound_mono (E := E) (Nat.le_sub_one_of_lt hold)
    omega
  · have hmono := Stream.bound_mono (E := E) hnew
    omega

theorem Core.flushPending (h : Core E s) :
    Core E s.flushPending ∧ (s.flushPending.curInline = true → s.flushPending.pendingLen = 0) := by
  rw [Sink.flushPending]
  split
  · next hzero => exact ⟨h, fun _ => hzero⟩
  · next hsome =>
      obtain ⟨hlisted, hchain, hclock, hlanes, ⟨full, hfull, hclaims⟩, hmarks⟩ := h
      obtain ⟨_, hlen, _⟩ | ⟨hcur, first, hgrow, hall, hcov⟩ := hclaims
      · exact absurd hlen hsome
      · rw [if_pos hcur, hall, onNewest_concat]
        refine ⟨⟨hlisted, hchain, hclock, hlanes, ⟨full ++ [⟨first, E.values first s.nextSpan, true⟩],
          ?_, Or.inl ⟨rfl, rfl, rfl, ?_⟩⟩, hmarks⟩, nofun⟩
        · intro q hq
          rcases List.mem_append.mp hq with hold | hnew
          · exact hfull q hold
          · rw [List.mem_singleton.mp hnew]
            have hle : first ≤ s.nextSpan := hgrow.1 ▸ Nat.le_add_right _ _
            simp [Stream.Sealed, Nat.add_sub_of_le hle]
        · have hlen : s.nextSpan - first = s.pendingLen := by
            have hend := hgrow.1
            omega
          simp only [List.map_append, List.map_cons, List.map_nil, InlineChunk.seg,
            Stream.length_values, hlen]
          have hsnoc := Covers.snoc hcov (Same.refl _) hgrow.2.2.1 (hclock.fits hgrow hsome)
          rw [hgrow.1] at hsnoc
          exact hsnoc

theorem flushPending_frame (s : Sink) : ∃ ring cur len,
    s.flushPending = { s with inlineRing := ring, curInline := cur, pendingLen := len } ∧
      (cur = true → s.curInline = true) := by
  rw [Sink.flushPending]
  split
  · exact ⟨_, _, _, rfl, id⟩
  · split
    · exact ⟨_, _, _, rfl, nofun⟩
    · exact ⟨_, _, _, rfl, id⟩

/-- The next span belongs to the claim under way, or to no claimed chunk. -/
def Ready (E : Stream) (s : Sink) : Prop :=
  (s.curInline = true ∧ E.Inlined s.nextSpan ∧ s.isInline (s.nextSpan / chunk) = true ∧
      (s.submitRem = chunk → s.pendingLen = 0)) ∨
    (s.curInline = false ∧ ¬ E.Inlined s.nextSpan)

/-- A span is taken in, without the flush at a chunk's end. -/
def Sink.taken (s : Sink) (v : U64) (msgs : ℕ) : Sink :=
  { (if s.curInline then s.submitInlineSpan v else s) with
    nextSpan := s.nextSpan + 1, count := s.count + msgs,
    submitRem := if s.submitRem - 1 = 0 then chunk else s.submitRem - 1 }

theorem submitSpan_eq (v : U64) (msgs : ℕ) : s.submitSpan v msgs =
    if s.submitRem - 1 = 0 ∧ s.curInline = true then (s.taken v msgs).flushPending
    else s.taken v msgs := by
  rw [Sink.submitSpan, Sink.taken]
  cases hcur : s.curInline <;> by_cases hrem : s.submitRem - 1 = 0 <;>
    simp [hrem, hcur, Sink.submitInlineSpan]

theorem Clocked.taken (h : Clocked E s) (hopen : s.passOpen = true)
    (hlt : s.nextSpan < E.bound s.begun) (hlag : s.nextSpan + 1 < s.foldPos + 2 ^ 31) :
    Clocked E (s.taken (E.value s.nextSpan) (E.msgs s.nextSpan)) := by
  obtain ⟨hle, _, hrem, hsub, hlo, _, _, hcount⟩ := h
  obtain ⟨hpos, hcount⟩ := hcount hopen
  have hframe : ∃ ring len, s.taken (E.value s.nextSpan) (E.msgs s.nextSpan) = { s with
      inlineRing := ring, pendingLen := len, nextSpan := s.nextSpan + 1,
      count := s.count + E.msgs s.nextSpan,
      submitRem := if s.submitRem - 1 = 0 then chunk else s.submitRem - 1 } := by
    rw [Sink.taken]
    split
    · exact ⟨_, _, rfl⟩
    · exact ⟨_, _, rfl⟩
  obtain ⟨ring, len, heq⟩ := hframe
  rw [heq]
  refine ⟨Nat.le_succ_of_le hle, hlag, hrem, ?_, Nat.le_succ_of_le hlo, hlt, ?_, fun _ => ⟨hpos, ?_⟩⟩
  · show (if s.submitRem - 1 = 0 then chunk else s.submitRem - 1) + (s.nextSpan + 1) % chunk = chunk
    unfold chunk at hsub ⊢
    split <;> omega
  · intro hclosed
    rw [show s.passOpen = false from hclosed] at hopen
    cases hopen
  · show s.count + E.msgs s.nextSpan = _
    rw [hcount, Stream.msgsTo_succ hlo]

theorem Claimed.taken (h : Claimed E s) (hclock : Clocked E s) (hready : Ready E s) (msgs : ℕ) :
    Claimed E (s.taken (E.value s.nextSpan) msgs) := by
  obtain ⟨full, hfull, hclaims⟩ := h
  have hfull' : ∀ q ∈ full, E.Sealed (s.nextSpan + 1) q := fun q hq =>
    ⟨(hfull q hq).1, (hfull q hq).2.1, Nat.le_succ_of_le (hfull q hq).2.2⟩
  rw [Sink.taken]
  obtain ⟨hcur, hlen, hall, hcov⟩ | ⟨hcur, first, ⟨hend, hlo, hclaimed, hchunk⟩, hall, hcov⟩ := hclaims
  · obtain ⟨hcur', _⟩ | ⟨_, hfree⟩ := hready
    · rw [hcur] at hcur'
      cases hcur'
    · rw [if_neg (by simp [hcur])]
      refine ⟨full, hfull', Or.inl ⟨hcur, hlen, hall, hcov.to_same (Same.of_between ?_ (Nat.le_succ _))⟩⟩
      intro p hle hlt
      obtain rfl : p = s.nextSpan := Nat.le_antisymm (Nat.le_of_lt_succ hlt) hle
      exact hfree
  · obtain ⟨_, _, _, hfresh⟩ | ⟨hcur', _⟩ := hready
    · rw [if_pos hcur]
      refine ⟨full, hfull', Or.inr ⟨hcur, first, ⟨?_, hlo, hclaimed, ?_⟩, ?_, hcov⟩⟩
      · show first + (s.pendingLen + 1) = s.nextSpan + 1
        omega
      · show first % chunk + (s.pendingLen + 1) ≤ chunk
        have hsub := hclock.2.2.2.1
        unfold chunk at hchunk hsub hfresh ⊢
        omega
      · have htake : (E.values first s.nextSpan).take s.pendingLen = E.values first s.nextSpan := by
          apply List.take_of_length_le
          rw [Stream.length_values]
          omega
        rw [Sink.submitInlineSpan, hall, onNewest_concat]
        simp only [htake, Stream.values_snoc (Nat.le.intro hend)]
    · rw [hcur] at hcur'
      cases hcur'

theorem taken_frame (v : U64) (msgs : ℕ) : ∃ ring len, s.taken v msgs = { s with
    inlineRing := ring, pendingLen := len, nextSpan := s.nextSpan + 1, count := s.count + msgs,
    submitRem := if s.submitRem - 1 = 0 then chunk else s.submitRem - 1 } ∧
    (s.curInline = true → len = s.pendingLen + 1) := by
  rw [Sink.taken]
  split
  · exact ⟨_, _, rfl, fun _ => rfl⟩
  · next hoff => exact ⟨_, _, rfl, fun hcur => absurd hcur hoff⟩

theorem Core.taken (h : Core E s) (hready : Ready E s) (hopen : s.passOpen = true)
    (hlt : s.nextSpan < E.bound s.begun) (hlag : s.nextSpan + 1 < s.foldPos + 2 ^ 31) :
    Core E (s.taken (E.value s.nextSpan) (E.msgs s.nextSpan)) := by
  obtain ⟨hlisted, hchain, hclock, hlanes, hclaims, hmarks⟩ := h
  have hclock' := hclock.taken hopen hlt hlag
  have hclaims' := hclaims.taken hclock hready (E.msgs s.nextSpan)
  obtain ⟨ring, len, heq, _⟩ := taken_frame (s := s) (E.value s.nextSpan) (E.msgs s.nextSpan)
  rw [heq] at hclock' hclaims' ⊢
  exact ⟨hlisted, hchain, hclock', hlanes, hclaims', hmarks⟩

theorem Core.submitSpan (h : Core E s) (hready : Ready E s) (hidle : s.ctl = .idle)
    (hwin : s.winOpen = s.passOpen) (hopen : s.passOpen = true)
    (hlt : s.nextSpan < E.bound s.begun) (hlag : s.nextSpan + 1 < s.foldPos + 2 ^ 31) :
    Core E (s.submitSpan (E.value s.nextSpan) (E.msgs s.nextSpan)) ∧
      Controlled E (s.submitSpan (E.value s.nextSpan) (E.msgs s.nextSpan)) := by
  have hcore := h.taken hready hopen hlt hlag
  have hsub := h.2.2.1.2.2.2.1
  obtain ⟨ring, len, heq, hlen⟩ := taken_frame (s := s) (E.value s.nextSpan) (E.msgs s.nextSpan)
  -- Off a chunk's end the next span lies in the same chunk.
  have hsame (hmid : (if s.submitRem - 1 = 0 then chunk else s.submitRem - 1) ≠ chunk) :
      (s.nextSpan + 1) / chunk = s.nextSpan / chunk ∧ s.submitRem - 1 ≠ 0 := by
    unfold chunk at hsub hmid ⊢
    split at hmid
    · exact absurd rfl hmid
    · constructor <;> omega
  have hmark (hmid : (if s.submitRem - 1 = 0 then chunk else s.submitRem - 1) ≠ chunk)
      (hin : E.Inlined (s.nextSpan + 1)) :
      s.curInline = true ∧ s.isInline ((s.nextSpan + 1) / chunk) = true := by
    rw [Stream.Inlined, (hsame hmid).1] at hin
    rw [(hsame hmid).1]
    rcases hready with ⟨hcur, _, hmarked, _⟩ | ⟨_, hfree⟩
    · exact ⟨hcur, hmarked⟩
    · exact absurd hin hfree
  have hnot (hclosed : s.passOpen = false) : False := by
    rw [hopen] at hclosed
    cases hclosed
  rw [submitSpan_eq]
  split
  · next hfull =>
      obtain ⟨hcore', hzero⟩ := hcore.flushPending
      have hend : (s.taken (E.value s.nextSpan) (E.msgs s.nextSpan)).flushPending.curInline =
          false := by
        rw [heq, Sink.flushPending, if_neg (by simp [hlen hfull.2]), if_pos hfull.2]
      refine ⟨hcore', ?_⟩
      obtain ⟨ring', cur, len', heq', _⟩ :=
        flushPending_frame (s.taken (E.value s.nextSpan) (E.msgs s.nextSpan))
      rw [heq'] at hend ⊢
      obtain rfl : cur = false := hend
      rw [heq]
      refine ⟨hwin, nofun, fun hmid hin => (hmark hmid hin).2, fun hclosed _ => (hnot hclosed).elim,
        ?_, fun _ _ hmid _ => absurd hfull.1 (hsame hmid).2, ?_⟩
      · exact fun hctl => absurd (hidle.symm.trans hctl) nofun
      · exact fun hctl => absurd (hidle.symm.trans hctl) nofun
  · next hmore =>
      refine ⟨hcore, ?_⟩
      rw [heq]
      refine ⟨hwin, fun hcur => ?_, fun hmid hin => (hmark hmid hin).2,
        fun hclosed _ => (hnot hclosed).elim, ?_, fun _ _ hmid hin => (hmark hmid hin).1, ?_⟩
      · have hrem : s.submitRem - 1 ≠ 0 := fun hzero => hmore ⟨hzero, hcur⟩
        show (if s.submitRem - 1 = 0 then chunk else s.submitRem - 1) ≠ chunk
        rw [if_neg hrem]
        unfold chunk at hsub ⊢
        omega
      · exact fun hctl => absurd (hidle.symm.trans hctl) nofun
      · exact fun hctl => absurd (hidle.symm.trans hctl) nofun

/-! ## The steps -/

theorem Core.publish (h : Core E s) {lane start k : ℕ} (hpub : Publishes E s lane start k) :
    Core E { s with
      lanes := Function.update s.lanes lane
        ⟨(s.lanes lane).ring ++ [E.record start k], start + k,
          (s.lanes lane).made ++ [(start, k)]⟩ } := by
  obtain ⟨hlisted, hchain, hclock, hlanes, hclaims, hmarks⟩ := h
  refine ⟨hlisted, hchain, hclock, fun other hother => ?_, hclaims, hmarks⟩
  obtain ⟨hring, hcov, hlag⟩ := hlanes other hother
  by_cases heq : other = lane
  · subst heq
    simp only [Function.update_self, hring, List.map_append, List.map_cons, List.map_nil, true_and]
    refine ⟨hcov.snoc (Same.of_between hpub.first hpub.behind) hpub.own hpub.fits, fun r hr => ?_⟩
    rcases List.mem_append.mp hr with hold | hnew
    · exact hlag r hold
    · rw [List.mem_singleton.mp hnew]
      exact hpub.lag
  · simp only [Function.update_of_ne heq]
    exact ⟨hring, hcov, hlag⟩

theorem Core.beginPass (h : Core E s) (hctl : Controlled E s) (hcur : s.curInline = false)
    {t : Sink} (ht : s.beginPass = some t) : Core E t ∧ Controlled E t := by
  obtain ⟨⟨hdone, hring⟩, hchain, hclock, hlanes, hclaims, hmarks⟩ := h
  obtain ⟨hwin, _, hnewest, _⟩ := hctl
  rw [Sink.beginPass] at ht
  split at ht
  · cases ht
  · next hclosed =>
      split at ht
      · cases ht
      · have hoff : s.passOpen = false := (Bool.not_eq_true _).mp hclosed
        dsimp only at ht
        rw [if_neg (by simp [hwin, hoff])] at ht
        obtain rfl := Option.some_inj.mp ht
        obtain ⟨hle, hlag, hrem, hsub, _, _, hend, _⟩ := hclock
        rw [hoff] at hring
        have hclaims' : Claimed E { s with begun := s.begun + 1 } := by
          obtain ⟨full, hfull, hfree | ⟨hcur', _⟩⟩ := hclaims
          · exact ⟨full, hfull, Or.inl hfree⟩
          · rw [hcur] at hcur'
            cases hcur'
        refine ⟨⟨⟨hdone, hring.snoc⟩, hchain, ⟨hle, hlag, hrem, hsub, ?_, ?_, nofun, ?_⟩, hlanes,
          hclaims', hmarks⟩, rfl, ?_, hnewest, nofun, ?_, ?_, ?_⟩
        · exact (hend hoff).ge
        · exact (hend hoff).le.trans (Stream.bound_mono (Nat.le_succ _))
        · refine fun _ => ⟨Nat.succ_pos _, ?_⟩
          show 0 = E.msgsTo s.begun s.nextSpan
          rw [hend hoff, Stream.msgsTo_bound]
        · intro hcur'
          exact absurd (hcur.symm.trans hcur') Bool.false_ne_true
        · intro hstraddle
          have hif : (if s.submitRem ≠ chunk ∧ s.isInline (s.nextSpan / chunk) = true then
              Ctl.straddle else Ctl.idle) = Ctl.straddle := hstraddle
          split at hif
          · next hmid => exact ⟨hcur, rfl, hmid.1, hmarks _ _ (beq_iff_eq.mp hmid.2)⟩
          · cases hif
        · intro hidle _ hmid hin
          have hif : (if s.submitRem ≠ chunk ∧ s.isInline (s.nextSpan / chunk) = true then
              Ctl.straddle else Ctl.idle) = Ctl.idle := hidle
          rw [if_pos ⟨hmid, hnewest hmid hin⟩] at hif
          cases hif
        · intro hfinish
          have hif : (if s.submitRem ≠ chunk ∧ s.isInline (s.nextSpan / chunk) = true then
              Ctl.straddle else Ctl.idle) = Ctl.finish := hfinish
          split at hif
          · cases hif
          · cases hif

theorem tryClaimInline_eq {slots : ℕ} {t : Sink} (h : s.tryClaimInline slots = some t) :
    t = { s with inlineRing := s.inlineRing ++ [⟨s.nextSpan, [], false⟩], curInline := true } := by
  rw [Sink.tryClaimInline] at h
  split at h
  · exact (Option.some_inj.mp h).symm
  · cases h

/-- A claim at the frontier takes no values yet. -/
theorem Core.claim (h : Core E s) (hcur : s.curInline = false) (hin : E.Inlined s.nextSpan) :
    Core E { s with
      inlineRing := s.inlineRing ++ [⟨s.nextSpan, [], false⟩], curInline := true } ∧
      s.pendingLen = 0 := by
  obtain ⟨hlisted, hchain, hclock, hlanes, ⟨full, hfull, hclaims⟩, hmarks⟩ := h
  obtain ⟨_, hlen, hall, hcov⟩ | ⟨hcur', _⟩ := hclaims
  · refine ⟨⟨hlisted, hchain, hclock, hlanes, ⟨full, hfull, Or.inr ⟨rfl, s.nextSpan,
      ⟨?_, hclock.2.2.2.2.1, hin, ?_⟩, ?_, hcov⟩⟩, hmarks⟩, hlen⟩
    · show s.nextSpan + s.pendingLen = s.nextSpan
      rw [hlen, Nat.add_zero]
    · show s.nextSpan % chunk + s.pendingLen ≤ chunk
      rw [hlen, Nat.add_zero]
      exact Nat.le_of_lt (Nat.mod_lt _ (by decide))
    · rw [hall, Stream.values_self]
  · rw [hcur] at hcur'
    cases hcur'

theorem Core.claimRest (h : Core E s) (hctl : Controlled E s) (hstraddle : s.ctl = .straddle)
    {t : Sink} (ht : s.tryClaimInline E.assistSlots = some t) :
    Core E { t with ctl := .idle } ∧ Controlled E { t with ctl := .idle } := by
  obtain ⟨hwin, _, hnewest, _, hrest, _, _⟩ := hctl
  obtain ⟨hcur, hopen, hmid, hin⟩ := hrest hstraddle
  obtain ⟨hcore, hlen⟩ := h.claim hcur hin
  obtain rfl := tryClaimInline_eq ht
  exact ⟨hcore, hwin, fun _ => hmid, hnewest, fun _ _ => hlen, nofun, fun _ _ _ _ => rfl, nofun⟩

theorem Marked.markInline (h : Marked E s) {id : ℕ} (hid : E.claimed id = true) :
    Marked E (s.markInline id) := by
  intro m id' hm
  by_cases heq : m = id % rxChunkCap
  · subst heq
    have hself : (s.markInline id).chunkState (id % rxChunkCap) = id + 1 := by
      simp [Sink.markInline]
    rw [← Nat.succ_injective (hself.symm.trans hm)]
    exact hid
  · have hother : (s.markInline id).chunkState m = s.chunkState m := by
      simp [Sink.markInline, heq]
    exact h m id' (hother.symm.trans hm)

theorem isInline_markInline (id : ℕ) : (s.markInline id).isInline id = true := by
  simp [Sink.isInline, Sink.markInline]

theorem Core.span (h : Core E s) (hctl : Controlled E s) {t : Sink} (ht : span E s = some t) :
    Core E t ∧ Controlled E t := by
  rw [OrderedFold.span] at ht
  split at ht
  · next hgo =>
      obtain ⟨hidle, hopen, hlt, hlag⟩ := hgo
      dsimp only at ht
      split at ht
      · next hclaim =>
          obtain ⟨hfull, hin⟩ := hclaim
          have hcur : s.curInline = false :=
            (Bool.not_eq_true _).mp fun hcur => hctl.2.1 hcur hfull
          obtain ⟨hcore, hlen⟩ := h.claim hcur hin
          obtain ⟨u, hu, rfl⟩ := Option.map_eq_some_iff.mp ht
          obtain rfl := tryClaimInline_eq hu
          obtain ⟨hlisted, hchain, hclock, hlanes, hclaims, hmarks⟩ := hcore
          refine Core.submitSpan ⟨hlisted, hchain, hclock, hlanes, hclaims, hmarks.markInline hin⟩
            (Or.inl ⟨rfl, hin, ?_, fun _ => hlen⟩) hidle hctl.1 hopen hlt hlag
          exact isInline_markInline _
      · next hplain =>
          obtain rfl := Option.some_inj.mp ht
          refine h.submitSpan ?_ hidle hctl.1 hopen hlt hlag
          cases hcur : s.curInline with
          | true =>
              have hmid := hctl.2.1 hcur
              have hin : E.Inlined s.nextSpan := by
                obtain ⟨_, _, hclock, _, ⟨full, _, ⟨hcur', _⟩ | ⟨_, first, hgrow, _⟩⟩, _⟩ := h
                · rw [hcur] at hcur'
                  cases hcur'
                · rw [Stream.Inlined, hclock.div_eq hgrow hmid]
                  exact hgrow.2.2.1
              exact Or.inl ⟨hcur, hin, hctl.2.2.1 hmid hin, fun hfull => absurd hfull hmid⟩
          | false =>
              refine Or.inr ⟨hcur, fun hin => ?_⟩
              by_cases hfull : s.submitRem = chunk
              · exact hplain ⟨hfull, hin⟩
              · have hcur' := hctl.2.2.2.2.2.1 hidle hopen hfull hin
                rw [hcur] at hcur'
                cases hcur'
  · cases ht

theorem Core.close (h : Core E s) (hopen : s.passOpen = true)
    (hall : s.nextSpan = E.bound s.begun) :
    Core E { s with passes := s.stampPass s.passes, passOpen := false, winOpen := false } := by
  obtain ⟨⟨hdone, hring⟩, hchain, hclock, hlanes, hclaims, hmarks⟩ := h
  obtain ⟨hle, hlag, hrem, hsub, hlo, hhi, _, hcount⟩ := hclock
  rw [hopen] at hring
  exact ⟨⟨hdone, hring.stampPass hall (hcount hopen).2⟩, hchain,
    ⟨hle, hlag, hrem, hsub, hlo, hhi, fun _ => hall, nofun⟩, hlanes, hclaims, hmarks⟩

theorem Controlled.close {cur : Bool} {len : ℕ} {ctl : Ctl}
    (h : Controlled E s) (hcur : cur = true → s.curInline = true) (hzero : cur = true → len = 0)
    (hctl : ctl ≠ .straddle) :
    Controlled E { s with
      curInline := cur, pendingLen := len, passOpen := false, winOpen := false, ctl := ctl } := by
  obtain ⟨_, hmid, hnewest, _⟩ := h
  exact ⟨rfl, fun hin => hmid (hcur hin), hnewest, fun _ => hzero, fun hs => absurd hs hctl, nofun,
    fun _ => rfl⟩

theorem Core.endPass (h : Core E s) (hctl : Controlled E s) (hidle : s.ctl = .idle)
    (hall : s.nextSpan = E.bound s.begun) {t : Sink} (ht : s.endPass = some t) :
    Core E t ∧ Controlled E t := by
  rw [Sink.endPass] at ht
  split at ht
  · next hopen =>
      obtain rfl := Option.some_inj.mp ht
      obtain ⟨hcore, hzero⟩ := h.flushPending
      obtain ⟨ring, cur, len, heq, hcur⟩ := flushPending_frame s
      rw [heq] at hcore hzero ⊢
      exact ⟨(hcore.close hopen hall).complete.1,
        Controlled.complete (hctl.close hcur hzero (by simp [hidle]))⟩
  · cases ht

theorem Core.harvest (h : Core E s) (hctl : Controlled E s) :
    Core E s.harvestCompleted ∧ Controlled E s.harvestCompleted := by
  obtain ⟨⟨hdone, hring⟩, ⟨hclean, hstops, hval, hlo, hhi, hfold⟩, hrest⟩ := h
  have hsame : s.harvestCompleted.done = s.done := by
    simp [Sink.done, Sink.harvestCompleted]
  refine ⟨⟨⟨?_, ?_⟩, ⟨hclean, hstops, ?_, ?_, ?_, hfold⟩, hrest⟩, hctl⟩
  · rw [hsame, ← hdone]
    exact List.append_nil _
  · rw [hsame]
    exact hring
  · rw [hsame]
    exact hval
  · rw [hsame]
    exact hlo
  · rw [hsame]
    exact hhi

theorem Core.finish (h : Core E s) (hctl : Controlled E s) (hclosed : s.passOpen = false) :
    Core E { s.flushPending with winOpen := false, ctl := .finish } ∧
      Controlled E { s.flushPending with winOpen := false, ctl := .finish } := by
  obtain ⟨hcore, hzero⟩ := h.flushPending
  obtain ⟨ring, cur, len, heq, hcur⟩ := flushPending_frame s
  rw [heq] at hcore hzero ⊢
  obtain ⟨_, hmid, hnewest, _⟩ := hctl
  exact ⟨hcore, hclosed.symm, fun hin => hmid (hcur hin), hnewest, fun _ => hzero, nofun, nofun,
    fun _ => hclosed⟩

theorem Core.finished (h : Core E s) (hctl : Controlled E s) (hfinish : s.ctl = .finish) :
    Core E (let t := s.completeBoundaries
      let r := t.journal.flushAll t.hash
      { t with hash := r.1, journal := r.2, ctl := .idle }) ∧
    Controlled E (let t := s.completeBoundaries
      let r := t.journal.flushAll t.hash
      { t with hash := r.1, journal := r.2, ctl := .idle }) := by
  obtain ⟨⟨hlisted, ⟨hclean, _, hval, hlo, hhi, hfold⟩, hrest⟩, _⟩ := h.complete
  obtain ⟨hwin, hmid, hnewest, hzero, _, _, hclosed⟩ := hctl.complete
  have hoff : s.completeBoundaries.passOpen = false := by
    apply hclosed
    rw [completeBoundaries_ctl, hfinish]
  obtain ⟨hchain, hempty⟩ :
      let r := s.completeBoundaries.journal.flushAll s.completeBoundaries.hash
      FoldJournal.chain r.1 r.2 =
        FoldJournal.chain s.completeBoundaries.hash s.completeBoundaries.journal ∧
        r.2.leaves = [] := FoldJournal.flushAll_chain hclean
  refine ⟨⟨hlisted, ⟨fun _ => hempty, ?_, hchain.trans hval, hlo, hhi, hfold⟩, hrest⟩,
    hwin, hmid, hnewest, hzero, nofun, fun _ hopen => ?_, nofun⟩
  · show ∀ l ∈ (s.completeBoundaries.journal.flushAll s.completeBoundaries.hash).2.leaves, _
    rw [hempty]
    nofun
  · exact absurd (hoff.symm.trans hopen) Bool.false_ne_true

/-! ## Runs -/

theorem core_new (tree : Bool) (cap : ℕ) : Core E (Sink.new tree cap) :=
  ⟨⟨rfl, rfl, rfl⟩, ⟨fun _ => rfl, nofun, by simp [Sink.new, FoldJournal.chain, Sink.done,
      Stream.hashed, Stream.bound], Nat.le_refl _, Nat.zero_le _, rfl⟩,
    ⟨Nat.le_refl _, by simp [Sink.new], rfl, rfl, Nat.le_refl _, Nat.le_refl _, fun _ => rfl, nofun⟩,
    fun _ _ => ⟨rfl, Same.refl _, nofun⟩,
    ⟨[], nofun, Or.inl ⟨rfl, rfl, rfl, Same.refl _⟩⟩, fun _ _ h => nomatch h⟩

theorem controlled_new (tree : Bool) (cap : ℕ) : Controlled E (Sink.new tree cap) :=
  ⟨rfl, nofun, fun hmid => absurd rfl hmid, nofun, nofun, nofun, nofun⟩

theorem step_core (hn : 0 < E.nLanes) {l : Label} {t : Sink} (hstep : Step E s l t)
    (hok : Clear s l) (h : Core E s) (hctl : Controlled E s) : Core E t ∧ Controlled E t := by
  cases hstep with
  | publish hpub => exact ⟨h.publish hpub, hctl⟩
  | beginPass hidle ht => exact h.beginPass hctl (hok rfl) ht
  | span ht => exact h.span hctl ht
  | claimRest hstraddle ht => exact h.claimRest hctl hstraddle ht
  | drain ht =>
      obtain ⟨u, hu, hcore, hctl', _⟩ := h.complete.1.foldOnce hctl.complete h.complete.2 hn
      obtain rfl := Option.some_inj.mp (ht.symm.trans hu)
      exact ⟨hcore, hctl'⟩
  | endPass hidle hall ht => exact h.endPass hctl hidle hall ht
  | harvest hidle => exact h.harvest hctl
  | finish hidle hclosed => exact h.finish hctl hclosed
  | finished hfinish _ => exact h.finished hctl hfinish

theorem reached_core (hn : 0 < E.nLanes) (h : Reached E Clear s) : Core E s ∧ Controlled E s := by
  induction h with
  | new tree cap => exact ⟨core_new tree cap, controlled_new tree cap⟩
  | step _ hok hstep ih => exact step_core hn hstep hok ih.1 ih.2

/-- Behind the last pass nothing is pending. -/
theorem Core.completed_all (h : Core E s) (hclosed : s.passOpen = false)
    (hall : s.nextSpan ≤ s.foldPos) :
    s.completeBoundaries.harvestCompleted.harvested = (List.range s.begun).map E.sequential := by
  obtain ⟨⟨⟨hdone, hring⟩, _⟩, hset⟩ := h.complete
  have hend := h.2.2.1.2.2.2.2.2.2.1 hclosed
  obtain ⟨ps, done, hash, J, heq⟩ := completeFrom_frame s s.passes
  have hrest : s.completeBoundaries.passes = [] := by
    by_contra hsome
    obtain ⟨p, rest, hps⟩ := List.exists_cons_of_ne_nil hsome
    rw [hps] at hring
    have hopen : s.completeBoundaries.passOpen = false := by
      rw [Sink.completeBoundaries, heq]
      exact hclosed
    have hbegun : s.completeBoundaries.begun = s.begun := by
      rw [Sink.completeBoundaries, heq]
    have hlen := hring.le
    rcases hring with ⟨hopen', _⟩ | ⟨rfl, _⟩
    · exact absurd (hopen.symm.trans hopen') Bool.false_ne_true
    · have hlt := hset _ (by rw [Sink.pendingBoundaryEnd, hps]; rfl)
      have hmono : E.bound (s.completeBoundaries.done + 1) ≤ E.bound s.begun := by
        apply Stream.bound_mono
        rw [← hbegun, ← hlen, List.length_cons]
        omega
      rw [completeBoundaries_foldPos] at hlt
      omega
  rw [hrest] at hring
  show s.completeBoundaries.harvested ++ s.completeBoundaries.completed = _
  rw [hdone, hring.1, Sink.completeBoundaries, heq]

/-- In every run of the sink and its workers whose passes begin with no claim open, the fold's
assertions hold, every span is folded once and in order, the harvested tuples are those of a
sequential sink, and the drain of `finish` gets on until every pass can be harvested. -/
theorem ordered_fold_sequential (E : Stream) (hn : 0 < E.nLanes) (s : Sink)
    (h : Reached E Clear s) :
    (∃ t, s.completeBoundaries.foldOnce E.nLanes = some t) ∧
      s.folded = List.range s.foldPos ∧
      s.harvested = (List.range s.harvested.length).map E.sequential ∧
      (s.ctl = .finish → s.foldPos < s.nextSpan → s.Evaluated E →
        ∀ t, Step E s .drain t → s.foldPos < t.foldPos) ∧
      (s.passOpen = false → s.nextSpan ≤ s.foldPos →
        s.completeBoundaries.harvestCompleted.harvested =
          (List.range s.begun).map E.sequential) := by
  obtain ⟨hcore, hctl⟩ := reached_core hn h
  obtain ⟨t, ht, _, _, _, hstep⟩ :=
    hcore.complete.1.foldOnce hctl.complete hcore.complete.2 hn
  refine ⟨⟨t, ht⟩, hcore.2.1.2.2.2.2.2, ?_, ?_, hcore.completed_all⟩
  · have hdone := congrArg (List.take s.harvested.length) hcore.1.1
    rw [List.take_left, ← List.map_take, List.take_range] at hdone
    have hmin : min s.harvested.length s.done = s.harvested.length :=
      Nat.min_eq_left (Nat.le_add_right _ _)
    rwa [hmin] at hdone
  · intro hfinish hlt heval u hu
    obtain ⟨ps, done, hash, J, heq⟩ := completeFrom_frame s s.passes
    cases hu with
    | drain hu =>
        obtain rfl := Option.some_inj.mp (hu.symm.trans ht)
        rw [completeBoundaries_foldPos] at hstep
        rw [Sink.completeBoundaries, heq] at hstep
        exact hstep (hctl.2.2.2.2.2.2 hfinish) hlt heval

/-- One lane whose first chunk is claimed inline. -/
def shortStream (passSpans : ℕ → ℕ) : Stream where
  nLanes := 1
  passSpans := passSpans
  value p := BitVec.ofNat 64 (3 * p + 5)
  msgs _ := 2
  claimed id := id == 0
  assistSlots := 4

/-- Two passes of one span in a claimed chunk, the first of them harvested. -/
theorem ordered_fold_sequential_short :
    ∃ s, Reached (shortStream fun _ => 1) Clear s ∧ s.nextSpan = 2 ∧
      s.harvested = [(shortStream fun _ => 1).sequential 0] ∧ s.folded = List.range s.foldPos := by
  have hnew : Reached (shortStream fun _ => 1) Clear _ := .new true 8
  have hopen := hnew.step (fun _ => rfl) (.beginPass rfl rfl)
  have hspan := hopen.step (by nofun) (.span rfl)
  have hend := hspan.step (by nofun) (.endPass rfl rfl rfl)
  have hfold := hend.step (by nofun) (.drain rfl)
  have hharvest := hfold.step (by nofun) (.harvest rfl)
  have hagain := hharvest.step (fun _ => rfl) (.beginPass rfl rfl)
  have hrest := hagain.step (by nofun) (.claimRest rfl rfl)
  have hlast := hrest.step (by nofun) (.span rfl)
  have hall := ordered_fold_sequential _ Nat.one_pos _ hlast
  exact ⟨_, hlast, rfl, hall.2.2.1, hall.2.1⟩

/-- The middle one of three passes is empty. -/
def emptyPassStream : Stream := shortStream fun i => if i = 1 then 0 else 1

/-- An empty pass that begins inside a claimed chunk leaves a claim that is never sealed: the
next pass claims the rest again, and the drain of `finish` waits for ever at that claim. -/
theorem ordered_fold_stalls :
    ∃ s, Reached emptyPassStream (fun _ _ => True) s ∧ s.ctl = .finish ∧ s.foldPos < s.nextSpan ∧
      s.Evaluated emptyPassStream ∧ ∀ t, Step emptyPassStream s .drain t → t = s := by
  have hnew : Reached emptyPassStream (fun _ _ => True) _ := .new true 8
  have hopen := hnew.step trivial (.beginPass rfl rfl)
  have hspan := hopen.step trivial (.span rfl)
  have hend := hspan.step trivial (.endPass rfl rfl rfl)
  have hfold := hend.step trivial (.drain rfl)
  have hempty := hfold.step trivial (.beginPass rfl rfl)
  have hclaim := hempty.step trivial (.claimRest rfl rfl)
  have hleft := hclaim.step trivial (.endPass rfl rfl rfl)
  have hthird := hleft.step trivial (.beginPass rfl rfl)
  have hagain := hthird.step trivial (.claimRest rfl rfl)
  have hlast := hagain.step trivial (.span rfl)
  have hclose := hlast.step trivial (.endPass rfl rfl rfl)
  have hfinish := hclose.step trivial (.finish rfl rfl)
  refine ⟨_, hfinish, rfl, by decide, ?_, ?_⟩
  · rintro lane - p hlt ⟨-, hfree⟩
    have hfirst : p / chunk = 0 := Nat.div_eq_of_lt (Nat.lt_trans hlt (by decide))
    rw [hfirst] at hfree
    cases hfree
  · intro t ht
    cases ht with
    | drain ht => exact (Option.some_inj.mp ht).symm

end HftProj.Testkit.OrderedFold
