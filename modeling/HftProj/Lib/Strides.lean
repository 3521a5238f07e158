import Mathlib.Tactic.Common

/-!
# Loops that advance by a stride

A loop runs while a whole stride fits below its end. An invariant at every cursor holds at the
cursor where it stops, and no stride fits behind that.
-/

namespace HftProj.Lib

variable {σ : Type*} {step : ℕ}

/-- One update for each whole stride below the end; the cursor behind the last and the state. -/
@[grind =]
def strides (hstep : 0 < step) (update : σ → ℕ → σ) (stop i : ℕ) (s : σ) : ℕ × σ :=
  if i + step ≤ stop then strides hstep update stop (i + step) (update s i) else (i, s)
termination_by stop - i

section Loop

variable (hstep : 0 < step) (update : σ → ℕ → σ) (stop : ℕ)

theorem strides_invariant {P : ℕ → σ → Prop}
    (hnext : ∀ i s, i + step ≤ stop → P i s → P (i + step) (update s i)) {i : ℕ} {s : σ}
    (h : P i s) :
    P (strides hstep update stop i s).1 (strides hstep update stop i s).2 := by
  induction i, s using strides.induct hstep update stop with
  | case1 i s hfits ih =>
      rw [strides, if_pos hfits]
      exact ih (hnext i s hfits h)
  | case2 i s hout =>
      rw [strides, if_neg hout]
      exact h

theorem strides_done (i : ℕ) (s : σ) : stop < (strides hstep update stop i s).1 + step := by
  induction i, s using strides.induct hstep update stop with
  | case1 i s hfits ih =>
      rw [strides, if_pos hfits]
      exact ih
  | case2 i s hout =>
      rw [strides, if_neg hout]
      exact Nat.lt_of_not_le hout

end Loop

end HftProj.Lib
