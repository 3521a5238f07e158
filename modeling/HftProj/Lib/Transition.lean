import Mathlib.Tactic.Common

/-!
# Partial transitions

A step that is not enabled gives `none`. Several parties are interleaved by giving each its
own labels, and a reachable state is one that some list of labels leads to.
-/

namespace HftProj.Lib.Transition

variable {σ ι : Type*} (step : σ → ι → Option σ)

/-- Take the labelled steps one after the other, if each is enabled. -/
@[grind =]
def run : σ → List ι → Option σ
  | s, [] => some s
  | s, i :: is => (step s i).bind fun s' => run s' is

/-- Some run leads from the first state to the second. -/
def Reachable (s s' : σ) : Prop := ∃ is, run step s is = some s'

variable {step}

@[simp] theorem run_nil (s : σ) : run step s [] = some s := rfl

theorem run_cons {s s' : σ} {i : ι} {is : List ι} :
    run step s (i :: is) = some s' ↔ ∃ t, step s i = some t ∧ run step t is = some s' :=
  Option.bind_eq_some_iff

theorem run_append {s s' : σ} {is js : List ι} :
    run step s (is ++ js) = some s' ↔ ∃ t, run step s is = some t ∧ run step t js = some s' := by
  induction is generalizing s with
  | nil => simp
  | cons i is ih =>
      rw [List.cons_append, run_cons]
      constructor
      · rintro ⟨t, hstep, hrest⟩
        obtain ⟨u, hu, hlast⟩ := ih.mp hrest
        exact ⟨u, run_cons.mpr ⟨t, hstep, hu⟩, hlast⟩
      · rintro ⟨u, hfirst, hlast⟩
        obtain ⟨t, hstep, hu⟩ := run_cons.mp hfirst
        exact ⟨t, hstep, ih.mpr ⟨u, hu, hlast⟩⟩

/-- A run of a restricted step is a run. -/
theorem Reachable.mono {step' : σ → ι → Option σ}
    (le : ∀ s i s', step s i = some s' → step' s i = some s') {s s' : σ}
    (h : Reachable step s s') : Reachable step' s s' := by
  obtain ⟨is, hrun⟩ := h
  refine ⟨is, ?_⟩
  induction is generalizing s with
  | nil => exact hrun
  | cons i is ih =>
      obtain ⟨t, hstep, hrest⟩ := run_cons.mp hrun
      exact run_cons.mpr ⟨t, le s i t hstep, ih hrest⟩

/-- A property that every enabled step keeps holds in every reachable state. -/
theorem invariant {P : σ → Prop} (keep : ∀ s i s', P s → step s i = some s' → P s')
    {s s' : σ} (start : P s) (h : Reachable step s s') : P s' := by
  obtain ⟨is, hrun⟩ := h
  induction is generalizing s with
  | nil => exact Option.some_inj.mp hrun ▸ start
  | cons i is ih =>
      obtain ⟨t, hstep, hrest⟩ := run_cons.mp hrun
      exact ih (keep s i t start hstep) hrest

end HftProj.Lib.Transition
