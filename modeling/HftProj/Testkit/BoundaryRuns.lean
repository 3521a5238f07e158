import HftProj.Testkit.Boundaries

/-!
# Runs of the boundary loop

A turn of the loop that finds the oldest pending pass crossed completes it and moves on, if it is
not declined. The election is keyed by the position of the boundary alone, so under the split a
second boundary at the same position is declined, and the loop turns forever.
-/

namespace HftProj.Testkit.Boundaries

open HftProj.Lib HftProj.Testkit.LaneGrid
open HftProj.Testkit.OrderedFold (passRing)
open HftProj.Testkit.OrderedFold.Stream (spanSeed)

/-- The lanes are split, as the turn reads the gate. -/
def Split (s : Sink) (v : View) : Prop := s.gate = true ∧ 0 < v.armedPass

instance (s : Sink) (v : View) : Decidable (Split s v) := inferInstanceAs (Decidable (_ ∧ _))

/-- The other lane's fold cursor. -/
def otherFold (s : Sink) (v : View) : ℕ := if s.dualArmed then v.p1Fold else s.z1FoldPos

/-- The fold, or both lanes' folds, have crossed the position. -/
def Crossed (s : Sink) (v : View) (endSpan : ℕ) : Prop :=
  if Split s v then laneEndAt endSpan 0 ≤ s.foldPos ∧ laneEndAt endSpan 1 ≤ otherFold s v
  else endSpan ≤ s.foldPos

/-- A closed pass that is not done yet, and whose boundary is crossed. -/
def Passed (s : Sink) (v : View) (r : PassRec) : Prop :=
  r.done = false ∧ ∃ e, r.endSpan = some e ∧ Crossed s v e

/-- The arrival that a completion consults. -/
def announced (s : Sink) (v : View) : Option Arrival :=
  if s.dualArmed ∧ v.armedPass ≤ s.oldest.passId then v.arrivalFull s.oldest.passId else none

/-- The other thread's leaves up to a cursor. -/
def window (s : Sink) (v : View) (j1p : ℕ) : List Leaf := (v.j1.take j1p).drop s.j1Consumed

/-- The leaves that a completion under the split merges. -/
def merged (s : Sink) (v : View) (endSpan j1p : ℕ) : List Leaf :=
  staging (!s.dualArmed) (s.journal.leaves.take (partitionLen s.journal endSpan)) (window s v j1p)

/-- A completion under the split goes through: the boundary lies beyond the last one elected, the
run announced is the next one and published, and the merge has room. -/
def Clear (s : Sink) (v : View) : Prop :=
  ∀ e, s.oldest.endSpan = some e → Split s v →
    s.boundaryTaken < e ∧ ∃ j1p, j1Stop v s.j1Consumed e (announced s v) = some j1p ∧
      (merged s v e j1p).length ≤ j1Cap

/-- The oldest pass is done with the value of the chain, the chain starts anew, and the tail moves
on. -/
def Finalized (s : Sink) (v : View) (s' : Sink) : Prop :=
  ∃ e h extra J sh j1p taken, s.oldest.endSpan = some e ∧
    s' = { s.snapshot h extra J sh with j1Consumed := j1p, boundaryTaken := taken } ∧
    h = if Split s v then mergeHash s.hash (merged s v e j1p)
      else (s.journal.flushUpto s.hash e).1

variable {s s' : Sink} {v : View} {e : ℕ}

theorem split_iff : (s.gate && decide (0 < v.armedPass)) = true ↔ Split s v := by
  rw [Bool.and_eq_true, decide_eq_true_eq]
  exact Iff.rfl

/-- The completion under the split, where it goes through. -/
theorem dualCompleteOne_clear {c1 : Option ℕ} {ov : ℕ} {run : Option Arrival} {j1p : ℕ}
    (hend : s.oldest.endSpan = some e) (hsplit : Split s v) (htaken : s.boundaryTaken < e)
    (hstop : j1Stop v s.j1Consumed e run = some j1p) (hroom : (merged s v e j1p).length ≤ j1Cap) :
    ∃ s', s.dualCompleteOne v e c1 ov (!s.dualArmed) run = .next s' ∧ Finalized s v s' := by
  rw [Sink.dualCompleteOne]
  dsimp only
  rw [if_neg (not_not_intro htaken), hstop]
  dsimp only
  split
  · rename_i hfull
    exact absurd hroom (Nat.not_le_of_lt hfull)
  · refine ⟨_, rfl, e, _, _, _, _, j1p, max s.boundaryTaken e, hend, rfl, ?_⟩
    rw [if_pos hsplit]
    rfl

/-- Otherwise the turn changes nothing but the word, or fails an assertion. -/
theorem dualCompleteOne_stuck {c1 : Option ℕ} {ov : ℕ} {run : Option Arrival}
    (h : ¬ (s.boundaryTaken < e ∧ ∃ j1p, j1Stop v s.j1Consumed e run = some j1p ∧
      (merged s v e j1p).length ≤ j1Cap)) :
    s.dualCompleteOne v e c1 ov (!s.dualArmed) run =
          .next { s with boundaryTaken := max s.boundaryTaken e } ∧ ¬ s.boundaryTaken < e ∨
      s.dualCompleteOne v e c1 ov (!s.dualArmed) run = .panic := by
  rw [Sink.dualCompleteOne]
  dsimp only
  by_cases htaken : s.boundaryTaken < e
  · rw [if_neg (not_not_intro htaken)]
    cases hstop : j1Stop v s.j1Consumed e run with
    | none => exact Or.inr rfl
    | some j1p =>
        dsimp only
        split
        · exact Or.inr rfl
        · rename_i hroom
          exact absurd ⟨htaken, j1p, hstop, Nat.le_of_not_lt hroom⟩ h
  · rw [if_pos htaken]
    exact Or.inl ⟨rfl, htaken⟩

/-! ## One turn -/

theorem turn_split (hne : s.passTail ≠ s.passHead) (hdone : s.oldest.done = false)
    (hend : s.oldest.endSpan = some e) (hsplit : Split s v) (hcross : Crossed s v e) :
    ∃ c1, s.turn v = s.dualCompleteOne v e c1 0 (!s.dualArmed) (announced s v) := by
  rw [Crossed, if_pos hsplit, otherFold] at hcross
  obtain ⟨hown, hother⟩ := hcross
  rw [Sink.turn, if_neg hne, if_neg (by rw [hdone]; exact Bool.false_ne_true), hend]
  dsimp only
  rw [if_pos (split_iff.mpr hsplit), announced]
  cases harmed : s.dualArmed with
  | true =>
      rw [harmed, if_pos rfl] at hother
      rw [if_pos rfl, if_neg (Nat.not_lt_of_le hown)]
      by_cases hid : v.armedPass ≤ s.oldest.passId
      · rw [if_pos hid, if_neg (Nat.not_lt_of_le hother), if_pos ⟨rfl, hid⟩]
        cases v.arrivalFull s.oldest.passId with
        | none => exact ⟨_, rfl⟩
        | some a => exact ⟨_, rfl⟩
      · rw [if_neg hid, if_neg (Nat.not_lt_of_le hother), if_neg fun h => hid h.2]
        exact ⟨_, rfl⟩
  | false =>
      rw [harmed, if_neg Bool.false_ne_true] at hother
      rw [if_neg Bool.false_ne_true, if_neg (by omega), if_neg fun h => Bool.false_ne_true h.1]
      exact ⟨_, rfl⟩

theorem turn_mono (hne : s.passTail ≠ s.passHead) (hdone : s.oldest.done = false)
    (hend : s.oldest.endSpan = some e) (hsplit : ¬ Split s v) (hcross : Crossed s v e) :
    s.turn v = s.monoComplete v e := by
  rw [Crossed, if_neg hsplit] at hcross
  rw [Sink.turn, if_neg hne, if_neg (by rw [hdone]; exact Bool.false_ne_true), hend]
  dsimp only
  rw [if_neg (fun h => hsplit (split_iff.mp h)), if_pos hcross]

/-- Nothing pending, or a pass that is open, done or not crossed, ends the loop. -/
theorem turn_idle (h : s.passTail = s.passHead ∨ ¬ Passed s v s.oldest) : s.turn v = .stop := by
  rw [Sink.turn]
  split
  · rfl
  · rename_i hne
    have hpassed := h.resolve_left hne
    split
    · rfl
    · rename_i hdone
      split
      · rfl
      · rename_i e hend
        have hcross : ¬ Crossed s v e := fun hcross =>
          hpassed ⟨by simpa using hdone, e, hend, hcross⟩
        rw [Crossed] at hcross
        split
        · rename_i hsplit
          rw [if_pos (split_iff.mp hsplit), otherFold] at hcross
          split
          · rename_i harmed
            rw [if_pos harmed] at hcross
            split
            · rfl
            · have hother : v.p1Fold < laneEndAt e 1 := by omega
              split
              · rfl
              · rfl
          · rename_i harmed
            rw [if_neg harmed] at hcross
            rw [if_pos (by omega)]
        · rename_i hsplit
          rw [if_neg (fun h => hsplit (split_iff.mpr h))] at hcross
          rw [if_neg hcross]

/-- A pass whose boundary is crossed is completed, if nothing stands in the way. -/
theorem turn_clear (hne : s.passTail ≠ s.passHead) (hpassed : Passed s v s.oldest)
    (hclear : Clear s v) : ∃ s', s.turn v = .next s' ∧ Finalized s v s' := by
  obtain ⟨hdone, e, hend, hcross⟩ := hpassed
  by_cases hsplit : Split s v
  · obtain ⟨htaken, j1p, hstop, hroom⟩ := hclear e hend hsplit
    obtain ⟨c1, hturn⟩ := turn_split hne hdone hend hsplit hcross
    rw [hturn]
    exact dualCompleteOne_clear hend hsplit htaken hstop hroom
  · rw [turn_mono hne hdone hend hsplit hcross]
    refine ⟨_, rfl, e, _, _, _, _, s.j1Consumed, s.boundaryTaken, hend, rfl, ?_⟩
    rw [if_neg hsplit]

/-- If something does, the turn is declined or fails. -/
theorem turn_stuck (hne : s.passTail ≠ s.passHead) (hpassed : Passed s v s.oldest)
    (hclear : ¬ Clear s v) :
    (∃ taken, s.turn v = .next { s with boundaryTaken := taken }) ∨ s.turn v = .panic := by
  obtain ⟨hdone, e, hend, hcross⟩ := hpassed
  rw [Clear] at hclear
  push Not at hclear
  obtain ⟨e', hend', hsplit, hstuck⟩ := hclear
  obtain rfl := Option.some.inj (hend.symm.trans hend')
  obtain ⟨c1, hturn⟩ := turn_split hne hdone hend hsplit hcross
  rw [hturn]
  have hno : ¬ (s.boundaryTaken < e ∧ ∃ j1p,
      j1Stop v s.j1Consumed e (announced s v) = some j1p ∧
        (merged s v e j1p).length ≤ j1Cap) := by
    rintro ⟨htaken, j1p, hstop, hroom⟩
    exact Nat.not_le_of_lt (hstuck htaken j1p hstop) hroom
  exact (dualCompleteOne_stuck hno).imp_left fun h => ⟨_, h.1⟩

/-! ## The whole loop -/

/-- The state behind so many turns. -/
inductive Reaches (s : Sink) (env : ℕ → View) : ℕ → Sink → Prop where
  | start : Reaches s env 0 s
  | turn {i : ℕ} {a b : Sink} : Reaches s env i a → a.turn (env i) = .next b →
      Reaches s env (i + 1) b

/-- How many passes are pending. -/
def pending (s : Sink) : ℕ := (s.passHead + passRing - s.passTail) % passRing

/-- The ring slot of the `i`-th pending pass. -/
def slot (s : Sink) (i : ℕ) : ℕ := (s.passTail + i) % passRing

/-- The ring indices are reduced. -/
def Ringed (s : Sink) : Prop := s.passTail < passRing ∧ s.passHead < passRing

/-- So many turns have completed the oldest passes, each of them crossed, in order and once. -/
structure Trace (s : Sink) (env : ℕ → View) (k : ℕ) (s' : Sink) : Prop where
  reached : Reaches s env k s'
  within : k ≤ pending s
  head : s'.passHead = s.passHead
  tail : s'.passTail = slot s k
  passed : ∀ i < k, Passed s (env i) (s.passes (slot s i))
  finalized : ∀ i < k, ∃ a b, Reaches s env i a ∧ Reaches s env (i + 1) b ∧
    a.passTail = slot s i ∧ Finalized a (env i) b ∧ s'.passes (slot s i) = b.passes (slot s i)
  others : ∀ j, (∀ i < k, j ≠ slot s i) → s'.passes j = s.passes j
  fixed : s'.gate = s.gate ∧ s'.dualArmed = s.dualArmed ∧ s'.foldPos = s.foldPos ∧
    s'.z1FoldPos = s.z1FoldPos

/-- The loop ends, since no pass is left or the next one is not crossed. -/
structure Completed (s : Sink) (env : ℕ → View) (k : ℕ) (s' : Sink) : Prop extends
    Trace s env k s' where
  stopped : s'.turn (env k) = .stop
  rest : k = pending s ∨ ¬ Passed s (env k) (s.passes (slot s k))

def Completes (s : Sink) (env : ℕ → View) : Prop := ∃ k s', Completed s env k s'

variable {env : ℕ → View} {i k : ℕ} {a b : Sink}

theorem Reaches.unique (h : Reaches s env i a) (h' : Reaches s env i b) : a = b := by
  induction h generalizing b with
  | start =>
      cases h'
      rfl
  | turn hreach hturn ih =>
      cases h' with
      | turn hreach' hturn' =>
          obtain rfl := ih hreach'
          rw [hturn] at hturn'
          exact Turn.next.inj hturn'

/-- No state lies behind a turn that ends the loop. -/
theorem Reaches.le (h : Reaches s env i a) (hk : Reaches s env k b)
    (hstop : b.turn (env k) = .stop) : i ≤ k := by
  by_contra hlt
  have hprefix : ∀ {j a}, Reaches s env j a → ∀ m ≤ j, ∃ c, Reaches s env m c ∧
      (m < j → ∃ d, c.turn (env m) = .next d) := by
    intro j a hj
    induction hj with
    | start =>
        intro m hm
        obtain rfl := Nat.le_zero.mp hm
        exact ⟨s, .start, fun hlt => absurd hlt (Nat.lt_irrefl 0)⟩
    | @turn j a b hreach hturn ih =>
        intro m hm
        obtain rfl | hlt := Nat.eq_or_lt_of_le hm
        · exact ⟨b, hreach.turn hturn, fun hlt => absurd hlt (Nat.lt_irrefl _)⟩
        · obtain ⟨c, hc, hnext⟩ := ih m (Nat.le_of_lt_succ hlt)
          obtain rfl | hlt' := Nat.eq_or_lt_of_le (Nat.le_of_lt_succ hlt)
          · obtain rfl := hc.unique hreach
            exact ⟨c, hc, fun _ => ⟨b, hturn⟩⟩
          · exact ⟨c, hc, fun _ => hnext hlt'⟩
  obtain ⟨c, hc, hnext⟩ := hprefix h k (by omega)
  obtain rfl := hc.unique hk
  obtain ⟨d, hd⟩ := hnext (by omega)
  rw [hstop] at hd
  cases hd

theorem slot_ne {j : ℕ} (hij : i < j) (hj : j ≤ pending s) : slot s j ≠ slot s i := by
  rw [pending, passRing] at hj
  rw [slot, slot, passRing]
  omega

theorem slot_eq_head (hring : Ringed s) (hk : k ≤ pending s) :
    slot s k = s.passHead ↔ k = pending s := by
  obtain ⟨htail, hhead⟩ := hring
  rw [pending, passRing] at *
  rw [slot, passRing]
  omega

theorem slot_zero (hring : Ringed s) : slot s 0 = s.passTail := Nat.mod_eq_of_lt hring.1

theorem slot_succ (s : Sink) (i : ℕ) : slot s (i + 1) = (slot s i + 1) % passRing := by
  rw [slot, slot, passRing]
  omega

namespace Trace

theorem start (hring : Ringed s) : Trace s env 0 s where
  reached := .start
  within := Nat.zero_le _
  head := rfl
  tail := (slot_zero hring).symm
  passed := fun i hi => absurd hi (Nat.not_lt_zero i)
  finalized := fun i hi => absurd hi (Nat.not_lt_zero i)
  others := fun _ _ => rfl
  fixed := ⟨rfl, rfl, rfl, rfl⟩

/-- The passes not completed yet are as they were. -/
theorem oldest (h : Trace s env i a) : a.oldest = s.passes (slot s i) := by
  rw [Sink.oldest, h.tail]
  exact h.others _ fun j hj => slot_ne hj h.within

theorem passed_iff (h : Trace s env i a) (v : View) (r : PassRec) : Passed a v r ↔ Passed s v r := by
  obtain ⟨hgate, harmed, hfold, hz1⟩ := h.fixed
  have hcross : ∀ e, Crossed a v e ↔ Crossed s v e := by
    intro e
    have hsplit : Split a v ↔ Split s v := by rw [Split, Split, hgate]
    rw [Crossed, Crossed, otherFold, otherFold, harmed, hfold, hz1]
    by_cases hs : Split s v
    · rw [if_pos hs, if_pos (hsplit.mpr hs)]
    · rw [if_neg hs, if_neg fun ha => hs (hsplit.mp ha)]
  simp only [Passed, hcross]

theorem next (hring : Ringed s) (h : Trace s env i a) (hne : a.passTail ≠ a.passHead)
    (hpassed : Passed a (env i) a.oldest) (hturn : a.turn (env i) = .next b)
    (hfin : Finalized a (env i) b) : Trace s env (i + 1) b := by
  have hlt : i < pending s := by
    have hend := slot_eq_head hring h.within
    rw [h.tail, h.head] at hne
    exact Nat.lt_of_le_of_ne h.within fun heq => hne (hend.mpr heq)
  have hmoved := hfin
  obtain ⟨e, hash, extra, J, sh, j1p, taken, hend, rfl, -⟩ := hmoved
  refine ⟨h.reached.turn hturn, hlt, h.head, ?_, ?_, ?_, ?_, h.fixed⟩
  · rw [slot_succ, ← h.tail]
    rfl
  · intro j hj
    obtain hj | rfl := Nat.lt_succ_iff_lt_or_eq.mp hj
    · exact h.passed j hj
    · rw [← h.oldest]
      exact (h.passed_iff _ _).mp hpassed
  · intro j hj
    obtain hj | rfl := Nat.lt_succ_iff_lt_or_eq.mp hj
    · obtain ⟨a', b', ha, hb, htail, hfin', hrec⟩ := h.finalized j hj
      refine ⟨a', b', ha, hb, htail, hfin', ?_⟩
      rw [← hrec]
      refine Function.update_of_ne ?_ _ _
      rw [h.tail]
      exact (slot_ne hj h.within).symm
    · exact ⟨a, _, h.reached, h.reached.turn hturn, h.tail, hfin, rfl⟩
  · intro j hj
    rw [← h.others j fun m hm => hj m (Nat.lt_succ_of_lt hm)]
    refine Function.update_of_ne ?_ _ _
    rw [h.tail]
    exact hj i (Nat.lt_succ_self i)

end Trace

/-- Before every turn that completes a pass under the split nothing stands in its way. -/
def AllClear (s : Sink) (env : ℕ → View) : Prop :=
  ∀ i a, Reaches s env i a → a.passTail ≠ a.passHead → Passed a (env i) a.oldest → Clear a (env i)

/-- With the way clear the loop completes what is crossed. -/
theorem Trace.completes (hring : Ringed s) (hclear : AllClear s env) (h : Trace s env i a) :
    Completes s env := by
  induction hm : pending s - i generalizing i a with
  | zero =>
      have hend : i = pending s := Nat.le_antisymm h.within (Nat.sub_eq_zero_iff_le.mp hm)
      have htail : a.passTail = a.passHead := by
        rw [h.tail, h.head]
        exact (slot_eq_head hring h.within).mpr hend
      exact ⟨i, a, h, turn_idle (Or.inl htail), Or.inl hend⟩
  | succ m ih =>
      by_cases hstop : a.passTail = a.passHead ∨ ¬ Passed a (env i) a.oldest
      · refine ⟨i, a, h, turn_idle hstop, ?_⟩
        obtain htail | hpassed := hstop
        · rw [h.tail, h.head] at htail
          exact Or.inl ((slot_eq_head hring h.within).mp htail)
        · rw [h.passed_iff, h.oldest] at hpassed
          exact Or.inr hpassed
      · obtain ⟨hne, hpassed⟩ := not_or.mp hstop
        have hpassed := not_not.mp hpassed
        obtain ⟨b, hturn, hfin⟩ := turn_clear hne hpassed (hclear i a h.reached hne hpassed)
        exact ih (h.next hring hne hpassed hturn hfin) (by omega)

/-- If something stands in the way of a turn, the loop does not complete it. -/
theorem not_completes (hreach : Reaches s env i a)
    (hne : a.passTail ≠ a.passHead) (hpassed : Passed a (env i) a.oldest)
    (hstuck : ¬ Clear a (env i)) : ¬ Completes s env := by
  rintro ⟨k, s', h⟩
  have hle := hreach.le h.reached h.stopped
  have hturn := turn_stuck hne hpassed hstuck
  obtain hlt | rfl := Nat.lt_or_eq_of_le hle
  · obtain ⟨a', b, ha, hb, -, hfin, -⟩ := h.finalized i hlt
    obtain rfl := ha.unique hreach
    obtain ⟨taken, hnext⟩ | hpanic := hturn
    · have hb' := hreach.turn hnext
      obtain rfl := hb.unique hb'
      obtain ⟨e, hash, extra, J, sh, j1p, taken', -, heq, -⟩ := hfin
      have htail : a'.passTail = (a'.passTail + 1) % passRing := congrArg Sink.passTail heq
      rw [passRing] at htail
      omega
    · cases hb with
      | turn hreach' hnext =>
          obtain rfl := hreach'.unique hreach
          rw [hpanic] at hnext
          cases hnext
  · obtain rfl := hreach.unique h.reached
    rw [h.stopped] at hturn
    obtain ⟨taken, hnext⟩ | hpanic := hturn
    · cases hnext
    · cases hpanic

/-- The loop completes exactly the passes that are crossed, whatever the other thread publishes
meanwhile, if and only if every completion under the split goes through: its boundary lies beyond
the last one elected, the run announced is the next one and published, and the merge has room. -/
theorem completes_iff (s : Sink) (env : ℕ → View) (hring : Ringed s) :
    Completes s env ↔ AllClear s env := by
  constructor
  · intro h i a hreach hne hpassed
    by_contra hstuck
    exact not_completes hreach hne hpassed hstuck h
  · exact fun hclear => (Trace.start hring).completes hring hclear

/-- With one fold nothing ever stands in the way, also where boundaries coincide. -/
theorem completes_mono (hring : Ringed s) (hgate : s.gate = false) : Completes s env := by
  apply (Trace.start hring).completes hring
  have hoff : ∀ {i a}, Reaches s env i a → a.gate = false := by
    intro i a h
    induction h with
    | start => exact hgate
    | @turn i a b hreach hturn ih =>
        have hsplit : ¬ Split a (env i) := fun h => Bool.false_ne_true (ih.symm.trans h.1)
        by_cases hstop : a.passTail = a.passHead ∨ ¬ Passed a (env i) a.oldest
        · rw [turn_idle hstop] at hturn
          cases hturn
        · obtain ⟨hne, hpassed⟩ := not_or.mp hstop
          obtain ⟨hdone, e, hend, hcross⟩ := not_not.mp hpassed
          rw [turn_mono hne hdone hend hsplit hcross] at hturn
          obtain rfl := Turn.next.inj hturn
          exact ih
  intro i a hreach _ _ e _ hsplit
  exact absurd (hsplit.1.symm.trans (hoff hreach)) (fun h => by cases h)

/-- Two pending passes, of which the second has no span, when the lanes are split. -/
def emptyPass : Sink where
  passes := fun i => ⟨some 5, 0, 0, false, i + 1⟩
  passTail := 0
  passHead := 2
  foldPos := 5
  z1FoldPos := 0
  hash := spanSeed
  journal := ⟨true, 4, []⟩
  gate := true
  dualArmed := true
  dualC1Pass := 0
  boundaryTaken := 0
  j1Consumed := 0
  sheaf := ⟨0, 0, 0, 0, 0⟩

/-- The other thread is past both boundaries, and is to arrive from the third pass on. -/
def idleView : View where
  armedPass := 3
  poisonAt := none
  p1Fold := 5
  arrivalFull := fun _ => none
  j1 := []
  scriptN := 0
  oddTotalsBefore := fun _ => 0
  lanes := none

theorem completes_iff_first :
    Completes { emptyPass with passHead := 1 } (fun _ => idleView) ↔
      AllClear { emptyPass with passHead := 1 } (fun _ => idleView) :=
  completes_iff _ _ ⟨by decide, by decide⟩

/-- The state behind the first completion. -/
def emptyPassNext : Sink :=
  match emptyPass.turn idleView with
  | .next s => s
  | _ => emptyPass

theorem emptyPass_turn : emptyPass.turn idleView = .next emptyPassNext := rfl

theorem emptyPassNext_turn : emptyPassNext.turn idleView = .next emptyPassNext := rfl

/-- Both boundaries are crossed, and yet the loop never ends: the second is declined in every
turn. -/
theorem empty_pass_spins :
    Ringed emptyPass ∧ pending emptyPass = 2 ∧
      (∀ i < 2, Passed emptyPass idleView (emptyPass.passes (slot emptyPass i))) ∧
      ¬ Completes emptyPass (fun _ => idleView) ∧
      ∀ n s, Reaches emptyPass (fun _ => idleView) n s → s.turn idleView ≠ .stop := by
  have hcrossed : ∀ s : Sink, s.gate = true → s.dualArmed = true → s.foldPos = 5 →
      Crossed s idleView 5 := by
    intro s hgate harmed hfold
    rw [Crossed, if_pos ⟨hgate, by decide⟩, otherFold, if_pos harmed, hfold]
    decide
  have hsecond : Reaches emptyPass (fun _ => idleView) 1 emptyPassNext :=
    Reaches.start.turn emptyPass_turn
  refine ⟨⟨by decide, by decide⟩, by decide, ?_, ?_, ?_⟩
  · exact fun i _ => ⟨rfl, 5, rfl, hcrossed _ rfl rfl rfl⟩
  · refine not_completes hsecond (by decide) ⟨rfl, 5, rfl, hcrossed _ rfl rfl rfl⟩ ?_
    intro hclear
    exact Nat.lt_irrefl 5 (hclear 5 rfl ⟨rfl, by decide⟩).1
  · intro n s hreach
    have hstate : s = emptyPass ∨ s = emptyPassNext := by
      induction hreach with
      | start => exact Or.inl rfl
      | turn _ hturn ih =>
          right
          obtain rfl | rfl := ih
          · exact (Turn.next.inj (emptyPass_turn.symm.trans hturn)).symm
          · exact (Turn.next.inj (emptyPassNext_turn.symm.trans hturn)).symm
    obtain rfl | rfl := hstate
    · rw [emptyPass_turn]
      exact fun h => by cases h
    · rw [emptyPassNext_turn]
      exact fun h => by cases h

end HftProj.Testkit.Boundaries
