import HftProj.Testkit.OrderedFold
import Mathlib.Data.List.Induction

/-!
# Passes through the journal

Records are pushed in the order of their ends, and at each boundary the journal is flushed up to
it, the hash is noted and starts anew. Wherever the journal's capacity flushes fall, each noted
hash is the serial chain of the records of its pass, as long as no boundary is left waiting while
records beyond it are flushed.
-/

namespace HftProj.Testkit.JournalPasses

open HftProj.Lib HftProj.Testkit.FoldJournal
open HftProj.Testkit.OrderedFold.Stream (spanSeed)

def fjCap : ℕ := 32768

/-- A capacity out of range is refused. -/
def withCapacity (tree : Bool) (cap : ℕ) : Option FoldJournal :=
  if 1 ≤ cap ∧ cap ≤ fjCap then some { tree := tree, cap := cap, leaves := [] } else none

/-- A record is pushed, or a boundary is completed. -/
inductive Op where
  | push (r : Leaf)
  | boundary (b : ℕ)

/-- The hash, the journal and the hashes noted. -/
structure Folding where
  hash : U64
  journal : FoldJournal
  snaps : List U64

def Folding.start (J : FoldJournal) : Folding := ⟨spanSeed, J, []⟩

def Folding.step (s : Folding) : Op → Folding
  | .push r =>
      let pushed := s.journal.push s.hash r.seg.1 r.seg.2 r.stop
      { s with hash := pushed.1, journal := pushed.2 }
  | .boundary b =>
      let flushed := s.journal.flushUpto s.hash b
      { hash := spanSeed, journal := flushed.2, snaps := s.snaps ++ [flushed.1] }

def run (J : FoldJournal) (ops : List Op) : Folding := ops.foldl Folding.step (.start J)

/-- The hash and the journal behind the final flush. -/
def finish (J : FoldJournal) (ops : List Op) : U64 × FoldJournal :=
  (run J ops).journal.flushAll (run J ops).hash

@[grind =]
def records : List Op → List Leaf
  | [] => []
  | .push r :: ops => r :: records ops
  | .boundary _ :: ops => records ops

@[grind =]
def boundaries : List Op → List ℕ
  | [] => []
  | .push _ :: ops => boundaries ops
  | .boundary b :: ops => b :: boundaries ops

/-- The ends of the records increase strictly and the boundaries do not decrease; a boundary is
completed once the records up to it are pushed. -/
def Ordered (ops : List Op) : Prop :=
  (records ops).Pairwise (·.stop < ·.stop) ∧ (boundaries ops).Pairwise (· ≤ ·) ∧
    ∀ before after b, ops = before ++ .boundary b :: after → ∀ r ∈ records after, b < r.stop

/-- The boundary is completed before any record ending beyond it is pushed. -/
def Timely (before : List Op) (b : ℕ) : Prop := ∀ r ∈ records before, r.stop ≤ b

/-- Until the boundary is completed, no capacity flush finds records beyond it. -/
def Unflushed (J : FoldJournal) (before : List Op) (b : ℕ) : Prop :=
  ∀ earlier r later, before = earlier ++ .push r :: later →
    (run J earlier).journal.leaves.length = (run J earlier).journal.cap →
    ∀ l ∈ (run J earlier).journal.leaves, l.stop ≤ b

/-- The serial chain of some records. -/
def serial (rs : List Leaf) : U64 :=
  (rs.map Leaf.seg).foldl (fun h s => foldComposeApply h s.1 s.2) spanSeed

/-- The records behind one boundary. -/
def beyond (lo : Option ℕ) (rs : List Leaf) : List Leaf :=
  rs.filter fun r => lo.all (· < r.stop)

/-- The records of the passes that the boundaries end. -/
@[grind =]
def passRecords (rs : List Leaf) : Option ℕ → List ℕ → List (List Leaf)
  | _, [] => []
  | lo, b :: bs => (beyond lo rs).filter (·.stop ≤ b) :: passRecords rs (some b) bs

variable {J : FoldJournal} {ops before : List Op} {rs : List Leaf} {lo : Option ℕ} {b : ℕ}
  {bs : List ℕ} {r : Leaf} {hash : U64}

/-! ## Passes -/

theorem mem_beyond : r ∈ beyond lo rs ↔ r ∈ rs ∧ ∀ a, lo = some a → a < r.stop := by
  rw [beyond, List.mem_filter]
  cases lo with
  | none => exact and_congr_right fun _ => ⟨fun _ a ha => (by cases ha), fun _ => rfl⟩
  | some a =>
      refine and_congr_right fun _ => ?_
      rw [Option.all_some, decide_eq_true_eq]
      constructor
      · intro h a' ha
        obtain rfl := Option.some.inj ha
        exact h
      · exact fun h => h a rfl

/-- Behind a later boundary there are the records of those behind an earlier one. -/
theorem filter_beyond (h : ∀ a, lo = some a → a ≤ b) :
    (beyond lo rs).filter (fun r => ¬ r.stop ≤ b) = beyond (some b) rs := by
  rw [beyond, beyond, List.filter_filter]
  apply List.filter_congr
  intro r _
  cases lo with
  | none => simp
  | some a =>
      have := h a rfl
      simp only [Option.all_some, ← Bool.decide_and]
      exact decide_eq_decide.mpr (by omega)

/-- Sorted records are cut by a boundary. -/
theorem filter_append_filter (h : rs.Pairwise (·.stop < ·.stop)) (b : ℕ) :
    rs.filter (·.stop ≤ b) ++ rs.filter (fun r => ¬ r.stop ≤ b) = rs := by
  induction rs with
  | nil => rfl
  | cons r rs ih =>
      obtain ⟨hfirst, hrest⟩ := List.pairwise_cons.mp h
      by_cases hr : r.stop ≤ b
      · rw [List.filter_cons_of_pos (by simpa using hr), List.filter_cons_of_neg (by simpa using hr),
          List.cons_append, ih hrest]
      · have hnone : rs.filter (·.stop ≤ b) = [] := by
          rw [List.filter_eq_nil_iff]
          intro t ht
          have := hfirst t ht
          rw [decide_eq_true_eq]
          omega
        rw [List.filter_cons_of_neg (by simpa using hr), List.filter_cons_of_pos (by simpa using hr),
          hnone, List.nil_append]
        congr 1
        rw [List.filter_eq_self]
        intro t ht
        have := hfirst t ht
        rw [decide_eq_true_eq]
        omega

theorem beyond_sorted (h : rs.Pairwise (·.stop < ·.stop)) :
    (beyond lo rs).Pairwise (·.stop < ·.stop) := h.filter _

theorem getLast?_cons_or (b : ℕ) (bs : List ℕ) (lo : Option ℕ) :
    (b :: bs).getLast?.or lo = bs.getLast?.or (some b) := by
  cases bs with
  | nil => rfl
  | cons c bs =>
      rw [List.getLast?_cons_cons, List.getLast?_cons]
      rfl

/-- Every record is in one pass, or behind the last boundary. -/
theorem passRecords_flatten (hrs : rs.Pairwise (·.stop < ·.stop)) (hbs : bs.Pairwise (· ≤ ·))
    (hlo : ∀ a, lo = some a → ∀ b ∈ bs, a ≤ b) :
    (passRecords rs lo bs).flatten ++ beyond (bs.getLast?.or lo) rs = beyond lo rs := by
  induction bs generalizing lo with
  | nil => rfl
  | cons b bs ih =>
      obtain ⟨hfirst, hrest⟩ := List.pairwise_cons.mp hbs
      have hnext : ∀ a, some b = some a → ∀ c ∈ bs, a ≤ c := by
        intro a ha
        obtain rfl := Option.some.inj ha
        exact hfirst
      rw [passRecords, List.flatten_cons, List.append_assoc, getLast?_cons_or, ih hrest hnext,
        ← filter_beyond fun a ha => hlo a ha b List.mem_cons_self]
      exact filter_append_filter (beyond_sorted hrs) b

theorem passRecords_snoc (rs : List Leaf) (lo : Option ℕ) (bs : List ℕ) (b : ℕ) :
    passRecords rs lo (bs ++ [b]) =
      passRecords rs lo bs ++ [(beyond (bs.getLast?.or lo) rs).filter (·.stop ≤ b)] := by
  induction bs generalizing lo with
  | nil => rfl
  | cons c bs ih =>
      rw [List.cons_append, passRecords, passRecords, ih, getLast?_cons_or, List.cons_append]

/-- A record behind all boundaries is in none of their passes. -/
theorem passRecords_push (h : ∀ b ∈ bs, b < r.stop) :
    passRecords (rs ++ [r]) lo bs = passRecords rs lo bs := by
  induction bs generalizing lo with
  | nil => rfl
  | cons b bs ih =>
      have hout : ¬ r.stop ≤ b := Nat.not_le_of_lt (h b List.mem_cons_self)
      have hnone : (beyond lo [r]).filter (·.stop ≤ b) = [] := by
        rw [beyond, List.filter_filter]
        apply List.filter_cons_of_neg
        simp [hout]
      have hsame : (beyond lo (rs ++ [r])).filter (·.stop ≤ b) =
          (beyond lo rs).filter (·.stop ≤ b) := by
        rw [beyond, List.filter_append, List.filter_append]
        exact (congrArg _ hnone).trans (List.append_nil _)
      rw [passRecords, passRecords, ih fun c hc => h c (List.mem_cons_of_mem b hc), hsame]

/-! ## The tree -/

theorem serial_append (rs ts : List Leaf) :
    serial (rs ++ ts) = (ts.map Leaf.seg).foldl applyLeaf (serial rs) := by
  rw [serial, List.map_append, List.foldl_append]
  rfl

theorem takeWhile_eq_filter (h : rs.Pairwise (·.stop < ·.stop)) (b : ℕ) :
    rs.takeWhile (·.stop ≤ b) = rs.filter (·.stop ≤ b) := by
  induction rs with
  | nil => rfl
  | cons r rs ih =>
      obtain ⟨hfirst, hrest⟩ := List.pairwise_cons.mp h
      by_cases hr : r.stop ≤ b
      · rw [List.takeWhile_cons_of_pos (by simpa using hr),
          List.filter_cons_of_pos (by simpa using hr), ih hrest]
      · rw [List.takeWhile_cons_of_neg (by simpa using hr), eq_comm, List.filter_eq_nil_iff]
        intro t ht
        rw [decide_eq_true_eq]
        obtain rfl | ht := List.mem_cons.mp ht
        · exact hr
        · have := hfirst t ht
          omega

/-- The flush of a boundary evaluates the leaves up to it and keeps the others. -/
theorem flushUpto_eq (htree : J.tree = true) (h : J.leaves.Pairwise (·.stop < ·.stop)) (b : ℕ) :
    (J.flushUpto hash b).1 =
        ((J.leaves.filter (·.stop ≤ b)).map Leaf.seg).foldl applyLeaf hash ∧
      (J.flushUpto hash b).2 = { J with leaves := J.leaves.filter fun r => ¬ r.stop ≤ b } := by
  have hcut := filter_append_filter h b
  rw [FoldJournal.flushUpto, takeWhile_eq_filter h]
  generalize J.leaves.filter (·.stop ≤ b) = low at hcut
  generalize J.leaves.filter (fun r => ¬ r.stop ≤ b) = high at hcut
  have htake : J.leaves.take low.length = low :=
    (congrArg (List.take _) hcut.symm).trans List.take_left
  have hdrop : J.leaves.drop low.length = high :=
    (congrArg (List.drop _) hcut.symm).trans List.drop_left
  split
  · rename_i hoff
    have hnil : J.leaves = [] := hoff.resolve_right (by rw [htree]; exact Bool.false_ne_true)
    rw [hnil, List.append_eq_nil_iff] at hcut
    obtain ⟨rfl, rfl⟩ := hcut
    exact ⟨rfl, by rw [← hnil]⟩
  · dsimp only
    split
    · rename_i hzero
      obtain rfl := List.length_eq_zero_iff.mp hzero
      have hhigh : high = J.leaves := by rw [← hcut, List.nil_append]
      exact ⟨rfl, by rw [hhigh]⟩
    · rw [htake, hdrop]
      exact ⟨applyPrefix_eq low, rfl⟩

/-! ## The invariant -/

theorem records_snoc (ops ops' : List Op) : records (ops ++ ops') = records ops ++ records ops' := by
  induction ops with
  | nil => rfl
  | cons op ops ih =>
      cases op with
      | push r => exact congrArg (r :: ·) ih
      | boundary b => exact ih

theorem boundaries_snoc (ops ops' : List Op) :
    boundaries (ops ++ ops') = boundaries ops ++ boundaries ops' := by
  induction ops with
  | nil => rfl
  | cons op ops ih =>
      cases op with
      | push r => exact ih
      | boundary b => exact congrArg (b :: ·) ih

theorem run_snoc (J : FoldJournal) (ops : List Op) (op : Op) :
    run J (ops ++ [op]) = (run J ops).step op := by
  rw [run, List.foldl_append]
  rfl

theorem Ordered.prefix {op : Op} (h : Ordered (ops ++ [op])) : Ordered ops := by
  obtain ⟨hrecords, hboundaries, hbehind⟩ := h
  rw [records_snoc] at hrecords
  rw [boundaries_snoc] at hboundaries
  refine ⟨(List.pairwise_append.mp hrecords).1, (List.pairwise_append.mp hboundaries).1, ?_⟩
  rintro before after b rfl r hr
  refine hbehind before (after ++ [op]) b ?_ r ?_
  · rw [List.append_assoc, List.cons_append]
  · rw [records_snoc]
    exact List.mem_append_left _ hr

theorem Ordered.push (h : Ordered (ops ++ [.push r])) : ∀ b ∈ boundaries ops, b < r.stop := by
  intro b hb
  have hsplit : ∀ ops : List Op, b ∈ boundaries ops →
      ∃ before after, ops = before ++ .boundary b :: after := by
    intro ops
    induction ops with
    | nil => exact fun hb => absurd hb List.not_mem_nil
    | cons op ops ih =>
        intro hb
        cases op with
        | push r =>
            obtain ⟨before, after, rfl⟩ := ih hb
            exact ⟨.push r :: before, after, rfl⟩
        | boundary c =>
            obtain rfl | hb := List.mem_cons.mp hb
            · exact ⟨[], ops, rfl⟩
            · obtain ⟨before, after, rfl⟩ := ih hb
              exact ⟨.boundary c :: before, after, rfl⟩
  obtain ⟨before, after, rfl⟩ := hsplit ops hb
  refine h.2.2 before (after ++ [.push r]) b ?_ r ?_
  · rw [List.append_assoc, List.cons_append]
  · rw [records_snoc]
    exact List.mem_append_right _ (List.mem_singleton_self r)

theorem Ordered.boundary (h : Ordered (ops ++ [.boundary b])) :
    ∀ a, (boundaries ops).getLast? = some a → a ≤ b := by
  intro a ha
  have hbounds := h.2.1
  rw [boundaries_snoc] at hbounds
  exact (List.pairwise_append.mp hbounds).2.2 a (List.mem_of_getLast? ha) b
    (List.mem_singleton_self b)

/-- The records of the pass in progress. -/
def inProgress (ops : List Op) : List Leaf := beyond (boundaries ops).getLast? (records ops)

theorem boundaries_push (ops : List Op) (r : Leaf) :
    boundaries (ops ++ [.push r]) = boundaries ops :=
  (boundaries_snoc ops [.push r]).trans (List.append_nil _)

theorem records_boundary (ops : List Op) (b : ℕ) : records (ops ++ [.boundary b]) = records ops :=
  (records_snoc ops [.boundary b]).trans (List.append_nil _)

theorem inProgress_push (h : Ordered (ops ++ [.push r])) :
    inProgress (ops ++ [.push r]) = inProgress ops ++ [r] := by
  have hmem : r ∈ beyond (boundaries ops).getLast? [r] :=
    mem_beyond.mpr ⟨List.mem_singleton_self r, fun a ha => h.push a (List.mem_of_getLast? ha)⟩
  rw [inProgress, records_snoc, boundaries_push, beyond, List.filter_append]
  congr 1
  exact List.filter_cons_of_pos (List.mem_filter.mp hmem).2

theorem inProgress_boundary (h : Ordered (ops ++ [.boundary b])) :
    inProgress (ops ++ [.boundary b]) = (inProgress ops).filter fun r => ¬ r.stop ≤ b := by
  rw [inProgress, inProgress, records_boundary, filter_beyond h.boundary, boundaries_snoc]
  congr 1
  exact List.getLast?_append

theorem inProgress_sorted (h : Ordered ops) : (inProgress ops).Pairwise (·.stop < ·.stop) :=
  beyond_sorted h.1

theorem Unflushed.prefix {op : Op} (h : Unflushed J (ops ++ [op]) b) : Unflushed J ops b := by
  rintro earlier r later rfl
  exact h earlier r (later ++ [op]) (by rw [List.append_assoc, List.cons_append])

theorem Timely.prefix {op : Op} (h : Timely (ops ++ [op]) b) : Timely ops b := by
  intro r hr
  apply h r
  rw [records_snoc]
  exact List.mem_append_left _ hr

/-- Each boundary is completed in time, or nothing beyond it is flushed before. -/
def Patient (J : FoldJournal) (ops : List Op) : Prop :=
  ∀ before after b, ops = before ++ .boundary b :: after → Timely before b ∨ Unflushed J before b

theorem Patient.prefix {op : Op} (h : Patient J (ops ++ [op])) : Patient J ops := by
  rintro before after b rfl
  exact h before (after ++ [op]) b (by rw [List.append_assoc, List.cons_append])

/-- What the hash stands for, of the pass in progress: the records `applied`, with the journal
holding the others. -/
structure Inv (J : FoldJournal) (ops : List Op) (applied : List Leaf) (s : Folding) : Prop where
  tree : s.journal.tree = true
  cap : s.journal.cap = J.cap
  split : inProgress ops = applied ++ s.journal.leaves
  hash : s.hash = serial applied
  early : ∀ b, Timely ops b ∨ Unflushed J ops b → ∀ r ∈ applied, r.stop ≤ b
  snaps : s.snaps = (passRecords (records ops) none (boundaries ops)).map serial

theorem Inv.push {applied : List Leaf} (h : Inv J ops applied (run J ops))
    (hord : Ordered (ops ++ [.push r])) :
    ∃ applied', Inv J (ops ++ [.push r]) applied' (run J (ops ++ [.push r])) := by
  have hsnaps : passRecords (records (ops ++ [.push r])) none (boundaries (ops ++ [.push r])) =
      passRecords (records ops) none (boundaries ops) := by
    rw [boundaries_push, records_snoc]
    exact passRecords_push hord.push
  have hback : ∀ b, Timely (ops ++ [.push r]) b ∨ Unflushed J (ops ++ [.push r]) b →
      Timely ops b ∨ Unflushed J ops b :=
    fun b hb => hb.imp Timely.prefix Unflushed.prefix
  rw [run_snoc, Folding.step, FoldJournal.push, h.tree]
  rw [Bool.not_true, if_neg Bool.false_ne_true]
  split
  · rename_i hfull
    refine ⟨applied ++ (run J ops).journal.leaves, rfl, h.cap, ?_, ?_, ?_, ?_⟩
    · rw [inProgress_push hord, h.split]
    · rw [serial_append, ← h.hash]
      exact applyPrefix_eq _
    · intro b hb t ht
      obtain ht | ht := List.mem_append.mp ht
      · exact h.early b (hback b hb) t ht
      · obtain hb | hb := hb
        · apply hb.prefix t
          have hmem : t ∈ inProgress ops := by
            rw [h.split]
            exact List.mem_append_right _ ht
          exact (mem_beyond.mp hmem).1
        · exact hb ops r [] rfl hfull t ht
    · exact h.snaps.trans (by rw [hsnaps])
  · refine ⟨applied, rfl, h.cap, ?_, h.hash, fun b hb => h.early b (hback b hb), ?_⟩
    · rw [inProgress_push hord, h.split, List.append_assoc]
    · exact h.snaps.trans (by rw [hsnaps])

theorem Inv.boundary {applied : List Leaf} (h : Inv J ops applied (run J ops))
    (hord : Ordered (ops ++ [.boundary b])) (hb : Timely ops b ∨ Unflushed J ops b) :
    Inv J (ops ++ [.boundary b]) [] (run J (ops ++ [.boundary b])) := by
  have hsorted := inProgress_sorted hord.prefix
  rw [h.split] at hsorted
  obtain ⟨hhash, hjournal⟩ := @flushUpto_eq _ (run J ops).hash h.tree
    (List.pairwise_append.mp hsorted).2.1 b
  have happlied := h.early b hb
  have hlow : applied.filter (·.stop ≤ b) = applied := by
    rw [List.filter_eq_self]
    exact fun r hr => decide_eq_true (happlied r hr)
  have hhigh : applied.filter (fun r => ¬ r.stop ≤ b) = [] := by
    rw [List.filter_eq_nil_iff]
    exact fun r hr hout => absurd (happlied r hr) (of_decide_eq_true hout)
  rw [run_snoc, Folding.step, hjournal]
  refine ⟨h.tree, h.cap, ?_, rfl, fun _ _ r hr => absurd hr List.not_mem_nil, ?_⟩
  · rw [inProgress_boundary hord, h.split, List.filter_append, hhigh]
  · have hpass : (inProgress ops).filter (·.stop ≤ b) =
        applied ++ (run J ops).journal.leaves.filter (·.stop ≤ b) := by
      rw [h.split, List.filter_append, hlow]
    dsimp only
    rw [records_boundary, boundaries_snoc, boundaries, boundaries, passRecords_snoc, List.map_append,
      List.map_singleton, Option.or_none, ← inProgress, hpass, serial_append, ← h.hash, hhash,
      h.snaps]

/-- The invariant holds over every run. -/
theorem run_inv (htree : J.tree = true) (hempty : J.leaves = []) (hord : Ordered ops)
    (hpatient : Patient J ops) : ∃ applied, Inv J ops applied (run J ops) := by
  induction ops using List.reverseRecOn with
  | nil => exact ⟨[], htree, rfl, hempty.symm, rfl, fun _ _ r hr => absurd hr List.not_mem_nil, rfl⟩
  | append_singleton ops op ih =>
      obtain ⟨applied, h⟩ := ih hord.prefix hpatient.prefix
      cases op with
      | push r => exact h.push hord
      | boundary b => exact ⟨[], h.boundary hord (hpatient ops [] b rfl)⟩

/-! ## The serial rollback -/

/-- The rollback applies every record at once. -/
structure Serial (ops : List Op) (s : Folding) : Prop where
  tree : s.journal.tree = false
  leaves : s.journal.leaves = []
  hash : s.hash = serial (inProgress ops)
  snaps : s.snaps = (passRecords (records ops) none (boundaries ops)).map serial

theorem run_serial (htree : J.tree = false) (hempty : J.leaves = []) (hord : Ordered ops)
    (htimely : ∀ before after b, ops = before ++ .boundary b :: after → Timely before b) :
    Serial ops (run J ops) := by
  induction ops using List.reverseRecOn with
  | nil => exact ⟨htree, hempty, rfl, rfl⟩
  | append_singleton ops op ih =>
      have h := ih hord.prefix fun before after b hsplit =>
        htimely before (after ++ [op]) b (by rw [hsplit, List.append_assoc, List.cons_append])
      cases op with
      | push r =>
          rw [run_snoc, Folding.step, FoldJournal.push, h.tree, Bool.not_false, if_pos rfl]
          refine ⟨h.tree, h.leaves, ?_, ?_⟩
          · rw [inProgress_push hord, serial_append, ← h.hash]
            rfl
          · rw [boundaries_push, records_snoc]
            exact h.snaps.trans (congrArg _ (passRecords_push hord.push).symm)
      | boundary b =>
          have hall : ∀ r ∈ inProgress ops, r.stop ≤ b := fun r hr =>
            htimely ops [] b rfl r (mem_beyond.mp hr).1
          have hflush : (run J ops).journal.flushUpto (run J ops).hash b =
              ((run J ops).hash, (run J ops).journal) := if_pos (Or.inl h.leaves)
          rw [run_snoc, Folding.step, hflush]
          refine ⟨h.tree, h.leaves, ?_, ?_⟩
          · have hnone : (inProgress ops).filter (fun r => ¬ r.stop ≤ b) = [] := by
              rw [List.filter_eq_nil_iff]
              exact fun r hr hout => absurd (hall r hr) (of_decide_eq_true hout)
            rw [inProgress_boundary hord, hnone]
            rfl
          · have hpass : (inProgress ops).filter (·.stop ≤ b) = inProgress ops := by
              rw [List.filter_eq_self]
              exact fun r hr => decide_eq_true (hall r hr)
            dsimp only
            rw [records_boundary, boundaries_snoc, boundaries, boundaries, passRecords_snoc,
              List.map_append, List.map_singleton, Option.or_none, ← inProgress, hpass, ← h.hash,
              h.snaps]

/-! ## The law -/

theorem withCapacity_eq {tree : Bool} {cap : ℕ} (h : withCapacity tree cap = some J) :
    J.tree = tree ∧ J.leaves = [] := by
  rw [withCapacity] at h
  split at h
  · obtain rfl := Option.some.inj h
    exact ⟨rfl, rfl⟩
  · cases h

/-- Every noted hash is the serial chain of the records of its pass, and the final hash that of
the records behind the last boundary; no record is in two of these, and none is left out. Where
every boundary is completed in time the rollback notes the same. -/
theorem journal_law (cap : ℕ) (J R : FoldJournal) (hJ : withCapacity true cap = some J)
    (hR : withCapacity false cap = some R) (ops : List Op) (hord : Ordered ops)
    (hpatient : Patient J ops) :
    (run J ops).snaps = (passRecords (records ops) none (boundaries ops)).map serial ∧
      (finish J ops).1 = serial (inProgress ops) ∧ (finish J ops).2.leaves = [] ∧
      (passRecords (records ops) none (boundaries ops)).flatten ++ inProgress ops = records ops ∧
      ((∀ before after b, ops = before ++ .boundary b :: after → Timely before b) →
        (run R ops).snaps = (run J ops).snaps ∧ (finish R ops).1 = (finish J ops).1) := by
  obtain ⟨htree, hempty⟩ := withCapacity_eq hJ
  obtain ⟨hserial, hnone⟩ := withCapacity_eq hR
  obtain ⟨applied, h⟩ := run_inv htree hempty hord hpatient
  have hclean : (run J ops).journal.Clean := fun hoff => by
    rw [h.tree] at hoff
    cases hoff
  have hfinal := @flushAll_chain _ (run J ops).hash hclean
  have hhash : (finish J ops).1 = serial (inProgress ops) := by
    have hchain := hfinal.1
    rw [chain, hfinal.2] at hchain
    rw [h.split, serial_append, ← h.hash]
    exact hchain
  refine ⟨h.snaps, hhash, hfinal.2, ?_, fun htimely => ?_⟩
  · have hflat := @passRecords_flatten _ none _ hord.1 hord.2.1 fun a ha => by cases ha
    rw [Option.or_none] at hflat
    rw [inProgress, hflat]
    exact List.filter_eq_self.mpr fun _ _ => rfl
  · have hs := run_serial hserial hnone hord htimely
    refine ⟨hs.snaps.trans h.snaps.symm, ?_⟩
    have hidle : (run R ops).journal.flushAll (run R ops).hash =
        ((run R ops).hash, (run R ops).journal) := if_pos (Or.inl hs.leaves)
    rw [hhash, finish, hidle, hs.hash]

/-- A capacity of two: a flush in the first pass, and a record of the second pushed before the
first boundary is completed. -/
def lateOps : List Op :=
  [.push ⟨(1, 5), 1⟩, .push ⟨(2, 6), 3⟩, .push ⟨(1, 7), 4⟩, .push ⟨(1, 8), 5⟩, .boundary 4]

theorem lateOps_split {after : List Op} (h : lateOps = before ++ .boundary b :: after) :
    before = lateOps.take 4 ∧ b = 4 ∧ after = [] := by
  rw [lateOps] at h
  rcases before with _ | ⟨_, _ | ⟨_, _ | ⟨_, _ | ⟨_, _ | ⟨_, before⟩⟩⟩⟩⟩ <;>
    simp at h
  obtain ⟨rfl, rfl, rfl, rfl, rfl, rfl⟩ := h
  exact ⟨rfl, rfl, rfl⟩

theorem journal_law_late :
    ∃ J R, withCapacity true 2 = some J ∧ withCapacity false 2 = some R ∧
    (run J lateOps).snaps =
        (passRecords (records lateOps) none (boundaries lateOps)).map serial ∧
      (finish J lateOps).1 = serial (inProgress lateOps) ∧ (finish J lateOps).2.leaves = [] ∧
      (passRecords (records lateOps) none (boundaries lateOps)).flatten ++ inProgress lateOps =
        records lateOps ∧
      ((∀ before after b, lateOps = before ++ .boundary b :: after → Timely before b) →
        (run R lateOps).snaps = (run J lateOps).snaps ∧
          (finish R lateOps).1 = (finish J lateOps).1) := by
  refine ⟨_, _, rfl, rfl, journal_law 2 _ _ rfl rfl lateOps ⟨by decide, by decide, ?_⟩ ?_⟩
  · intro before after b h
    obtain ⟨rfl, rfl, rfl⟩ := lateOps_split h
    exact fun r hr => absurd hr List.not_mem_nil
  · intro before after b h
    obtain ⟨rfl, rfl, rfl⟩ := lateOps_split h
    refine Or.inr fun earlier r later hsplit hfull => ?_
    rw [lateOps] at hsplit
    rcases earlier with _ | ⟨_, _ | ⟨_, _ | ⟨_, _ | ⟨_, earlier⟩⟩⟩⟩ <;> simp at hsplit
    · exact absurd hfull (by decide)
    · obtain ⟨rfl, rfl, rfl⟩ := hsplit
      exact absurd hfull (by decide)
    · obtain ⟨rfl, rfl, rfl, rfl⟩ := hsplit
      decide
    · obtain ⟨rfl, rfl, rfl, rfl, rfl⟩ := hsplit
      exact absurd hfull (by decide)

end HftProj.Testkit.JournalPasses
