import Mathlib.Data.List.Induction
import Mathlib.Tactic.Common

/-!
# Machines with an output trace

A step maps a state and an input to a new state and the outputs it makes, in
order. A run concatenates the outputs of its steps. The rules below carry a
property along a run together with the inputs read and the outputs made so far.
-/

namespace HftProj.Lib

/-- A new state together with the outputs made on the way, in emission order. -/
abbrev Traced (σ ο : Type*) := σ × List ο

namespace Traced

variable {σ ο : Type*}

/-- Continue from the state reached and append the further outputs. -/
def andThen (r : Traced σ ο) (f : σ → Traced σ ο) : Traced σ ο :=
  ((f r.1).1, r.2 ++ (f r.1).2)

@[simp] theorem andThen_fst (r : Traced σ ο) (f : σ → Traced σ ο) :
    (r.andThen f).1 = (f r.1).1 := rfl

@[simp] theorem andThen_snd (r : Traced σ ο) (f : σ → Traced σ ο) :
    (r.andThen f).2 = r.2 ++ (f r.1).2 := rfl

end Traced

namespace Machine

variable {σ ι ο : Type*} (step : σ → ι → Traced σ ο)

/-- Feed a list of inputs, collecting every output. -/
@[grind =]
def run : σ → List ι → Traced σ ο
  | s, [] => (s, [])
  | s, i :: is => (step s i).andThen fun s' => run s' is

@[simp] theorem run_nil (s : σ) : run step s [] = (s, []) := rfl

theorem run_cons (s : σ) (i : ι) (is : List ι) :
    run step s (i :: is) = (step s i).andThen fun s' => run step s' is := rfl

theorem run_append (s : σ) (is js : List ι) :
    run step s (is ++ js) = (run step s is).andThen fun s' => run step s' js := by
  induction is generalizing s with
  | nil => simp [Traced.andThen]
  | cons i is ih =>
      simp only [List.cons_append, run_cons, Traced.andThen, ih, List.append_assoc]

theorem run_snoc (s : σ) (is : List ι) (i : ι) :
    run step s (is ++ [i]) = (run step s is).andThen fun s' => step s' i := by
  rw [run_append]
  simp [run_cons, Traced.andThen]

/-- Every step of the run meets a condition on the state before it and its input. -/
@[grind =]
def Along (cond : σ → ι → Prop) : σ → List ι → Prop
  | _, [] => True
  | s, i :: is => cond s i ∧ Along cond (step s i).1 is

variable {step} {cond : σ → ι → Prop}

instance Along.decidable [∀ s i, Decidable (cond s i)] :
    ∀ (s : σ) (is : List ι), Decidable (Along step cond s is)
  | _, [] => isTrue trivial
  | s, i :: is =>
      have := Along.decidable (step s i).1 is
      inferInstanceAs (Decidable (cond s i ∧ Along step cond (step s i).1 is))

theorem along_of_forall {ok : ι → Prop} (h : ∀ s i, ok i → cond s i) (s : σ)
    (is : List ι) (hok : ∀ i ∈ is, ok i) : Along step cond s is := by
  induction is generalizing s with
  | nil => trivial
  | cons i is ih =>
      exact ⟨h s i (hok i (by simp)), ih _ fun j hj => hok j (by simp [hj])⟩

/-- An invariant along which every admissible step meets the condition. -/
theorem along_of_invariant {P : σ → Prop} {ok : ι → Prop} {s : σ} (start : P s)
    (keep : ∀ s i, P s → ok i → P (step s i).1) (h : ∀ s i, P s → ok i → cond s i)
    (is : List ι) (hok : ∀ i ∈ is, ok i) : Along step cond s is := by
  induction is generalizing s with
  | nil => trivial
  | cons i is ih =>
      have hi := hok i (by simp)
      exact ⟨h s i start hi, ih (keep s i start hi) fun j hj => hok j (by simp [hj])⟩

/-- Two conditions that agree on an invariant hold along the same runs, if a step that
meets the first one keeps the invariant. -/
theorem along_iff_of_invariant {cond' : σ → ι → Prop} {P : σ → Prop} {ok : ι → Prop}
    (keep : ∀ s i, P s → ok i → cond s i → P (step s i).1)
    (h : ∀ s i, P s → ok i → (cond s i ↔ cond' s i)) {s : σ} (start : P s) (is : List ι)
    (hok : ∀ i ∈ is, ok i) : Along step cond s is ↔ Along step cond' s is := by
  induction is generalizing s with
  | nil => exact Iff.rfl
  | cons i is ih =>
      have hi := hok i List.mem_cons_self
      have hrest := fun hc => ih (keep s i start hi hc) fun j hj => hok j (List.mem_cons_of_mem i hj)
      constructor
      · exact fun ⟨hc, htail⟩ => ⟨(h s i start hi).mp hc, (hrest hc).mp htail⟩
      · intro ⟨hc, htail⟩
        have hc' := (h s i start hi).mpr hc
        exact ⟨hc', (hrest hc').mpr htail⟩

theorem Along.and_forall {ok : ι → Prop} {s : σ} {is : List ι} (h : Along step cond s is)
    (hok : ∀ i ∈ is, ok i) : Along step (fun s i => ok i ∧ cond s i) s is := by
  induction is generalizing s with
  | nil => trivial
  | cons i is ih =>
      exact ⟨⟨hok i (by simp), h.1⟩, ih h.2 fun j hj => hok j (by simp [hj])⟩

theorem along_append {s : σ} {is js : List ι} :
    Along step cond s (is ++ js) ↔
      Along step cond s is ∧ Along step cond (run step s is).1 js := by
  induction is generalizing s with
  | nil => simp [Along]
  | cons i is ih => simp [Along, run_cons, ih, and_assoc]

/-- A property of the inputs so far, the state and the outputs so far holds of a
run whose steps meet `cond`, if it holds at the start and every such step keeps it. -/
theorem run_history {P : List ι → Traced σ ο → Prop} {s : σ}
    (start : P [] (s, []))
    (keep : ∀ is r i, P is r → cond r.1 i → P (is ++ [i]) (r.andThen fun s' => step s' i))
    (is : List ι) (hc : Along step cond s is) : P is (run step s is) := by
  induction is using List.reverseRecOn with
  | nil => exact start
  | append_singleton is i ih =>
      obtain ⟨hpre, hlast⟩ := along_append.mp hc
      rw [run_snoc]
      exact keep is _ i (ih hpre) hlast.1

/-- The same for a property that every step keeps. -/
theorem run_induction (P : List ι → Traced σ ο → Prop) {s : σ} (start : P [] (s, []))
    (keep : ∀ is r i, P is r → P (is ++ [i]) (r.andThen fun s' => step s' i)) (is : List ι) :
    P is (run step s is) := by
  induction is using List.reverseRecOn with
  | nil => exact start
  | append_singleton is i ih =>
      rw [run_snoc]
      exact keep is _ i ih

/-- A state property kept by every step meeting `cond` holds after every such run. -/
theorem run_invariant {P : σ → Prop} {s : σ} (start : P s)
    (keep : ∀ s i, P s → cond s i → P (step s i).1)
    (is : List ι) (hc : Along step cond s is) : P (run step s is).1 :=
  run_history (P := fun _ r => P r.1) start (fun _ r i hr hi => keep r.1 i hr hi) is hc

/-- Two machines in related states whose steps keep the relation and relate their outputs
by a renaming do so along every run. -/
theorem run_simulation {σ' : Type*} {step' : σ' → ι → Traced σ' ο} {R : σ → σ' → Prop}
    {ren : ο → ο} (keep : ∀ s s' i, R s s' → R (step s i).1 (step' s' i).1 ∧
      (step s i).2 = (step' s' i).2.map ren) {s : σ} {s' : σ'} (h : R s s') (is : List ι) :
    R (run step s is).1 (run step' s' is).1 ∧
      (run step s is).2 = (run step' s' is).2.map ren := by
  induction is generalizing s s' with
  | nil => exact ⟨h, rfl⟩
  | cons i is ih =>
      obtain ⟨hnext, hout⟩ := keep s s' i h
      obtain ⟨hlast, hrest⟩ := ih hnext
      refine ⟨hlast, ?_⟩
      rw [run_cons, run_cons, Traced.andThen_snd, Traced.andThen_snd, List.map_append, hout, hrest]

/-! ## Totals -/

/-- The sum of a quantity over the steps of a run. -/
@[grind =]
def total (step : σ → ι → Traced σ ο) (g : σ → ι → ℕ) : σ → List ι → ℕ
  | _, [] => 0
  | s, i :: is => g s i + total step g (step s i).1 is

/-- A measure that every step raises by a quantity is raised by its total. -/
theorem run_total {m : σ → ℕ} {g : σ → ι → ℕ}
    (h : ∀ s i, cond s i → m (step s i).1 = m s + g s i) {s : σ} (is : List ι)
    (hc : Along step cond s is) : m (run step s is).1 = m s + total step g s is := by
  induction is generalizing s with
  | nil => rfl
  | cons i is ih =>
      rw [run_cons, Traced.andThen_fst, ih hc.2, h s i hc.1, total, Nat.add_assoc]

theorem total_congr {g g' : σ → ι → ℕ} (h : ∀ s i, cond s i → g s i = g' s i) {s : σ}
    (is : List ι) (hc : Along step cond s is) : total step g s is = total step g' s is := by
  induction is generalizing s with
  | nil => rfl
  | cons i is ih => rw [total, total, h s i hc.1, ih hc.2]

theorem total_add (step : σ → ι → Traced σ ο) (g g' : σ → ι → ℕ) (s : σ) (is : List ι) :
    total step (fun s i => g s i + g' s i) s is = total step g s is + total step g' s is := by
  induction is generalizing s with
  | nil => rfl
  | cons i is ih =>
      rw [total, total, total, ih]
      omega

/-! ## Visits

Some outputs are marks. A visit is the part of a run since the last mark: its
inputs start with the one whose step made the mark, its outputs follow the mark.
-/

section Visits

variable (mark : ο → Bool)

/-- The outputs that follow the last mark. -/
def afterLast (outs : List ο) : List ο :=
  outs.foldl (fun seen o => if mark o then [] else seen ++ [o]) []

theorem afterLast_append_of_none {outs more : List ο} (h : ∀ o ∈ more, mark o = false) :
    afterLast mark (outs ++ more) = afterLast mark outs ++ more := by
  induction more using List.reverseRecOn with
  | nil => simp
  | append_singleton more o ih =>
      have ho : mark o = false := h o (by simp)
      have hmore := ih fun x hx => h x (by simp [hx])
      unfold afterLast at hmore ⊢
      rw [← List.append_assoc, List.foldl_append, hmore]
      simp [ho]

theorem afterLast_append_mark {outs more : List ο} {o : ο} (ho : mark o = true)
    (h : ∀ x ∈ more, mark x = false) : afterLast mark (outs ++ o :: more) = more := by
  have hmark : afterLast mark (outs ++ [o]) = [] := by
    simp [afterLast, List.foldl_append, ho]
  calc afterLast mark (outs ++ o :: more) = afterLast mark ((outs ++ [o]) ++ more) := by simp
    _ = afterLast mark (outs ++ [o]) ++ more := afterLast_append_of_none mark h
    _ = more := by rw [hmark, List.nil_append]

/-- Inputs of a run, each with the outputs of its step. -/
@[grind =]
def trace (step : σ → ι → Traced σ ο) : σ → List ι → List (ι × List ο)
  | _, [] => []
  | s, i :: is => (i, (step s i).2) :: trace step (step s i).1 is

theorem trace_snoc (step : σ → ι → Traced σ ο) (s : σ) (is : List ι) (i : ι) :
    trace step s (is ++ [i]) = trace step s is ++ [(i, (step (run step s is).1 i).2)] := by
  induction is generalizing s with
  | nil => rfl
  | cons j is ih => simp [trace, ih, run_cons]

/-- The inputs since the last step that made a mark, that step's input included. -/
def sinceMark (tr : List (ι × List ο)) : List ι :=
  tr.foldl (fun seen e => if e.2.any mark then [e.1] else seen ++ [e.1]) []

theorem sinceMark_snoc (tr : List (ι × List ο)) (e : ι × List ο) :
    sinceMark mark (tr ++ [e]) =
      if e.2.any mark then [e.1] else sinceMark mark tr ++ [e.1] := by
  simp [sinceMark, List.foldl_append]

variable {mark} {s₀ : σ}

/-- A property of the current visit's inputs, the state and the visit's outputs holds of
every run whose steps meet `cond`, if it holds at the start, starts afresh with every mark
and is kept by every other step. -/
theorem visit_induction {P : List ι → σ → List ο → Prop} (start : P [] s₀ [])
    (cross : ∀ is s outs i, P is s outs → cond s i → (step s i).2.any mark = true →
      ∃ o more, (step s i).2 = o :: more ∧ mark o = true ∧ (∀ x ∈ more, mark x = false) ∧
        P [i] (step s i).1 more)
    (stay : ∀ is s outs i, P is s outs → cond s i → (step s i).2.any mark = false →
      P (is ++ [i]) (step s i).1 (outs ++ (step s i).2))
    (is : List ι) (hc : Along step cond s₀ is) :
    P (sinceMark mark (trace step s₀ is)) (run step s₀ is).1
      (afterLast mark (run step s₀ is).2) := by
  induction is using List.reverseRecOn with
  | nil => exact start
  | append_singleton is i ih =>
      obtain ⟨hpre, hlast⟩ := along_append.mp hc
      have hP := ih hpre
      rw [trace_snoc, sinceMark_snoc, run_snoc, Traced.andThen_fst, Traced.andThen_snd]
      cases hany : (step (run step s₀ is).1 i).2.any mark with
      | true =>
          obtain ⟨o, more, hout, ho, hmore, hnew⟩ := cross _ _ _ i hP hlast.1 hany
          rw [hout, afterLast_append_mark mark ho hmore]
          exact hnew
      | false =>
          rw [afterLast_append_of_none mark (by simpa using hany)]
          exact stay _ _ _ i hP hlast.1 hany

end Visits

end Machine

end HftProj.Lib
