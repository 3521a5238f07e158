import Mathlib.Data.List.Induction
import Mathlib.Tactic.Common

/-!
# Fallible loops

A loop whose body may fail, with an invariant over what has been read so far: either the body
never fails where the invariant holds, or the loop is known to have come to its end.
-/

namespace HftProj.Lib.Fallible

variable {ε α β : Type} {ι : Type*}

theorem bind_eq_ok {x : Except ε α} {g : α → Except ε β} {b : β} :
    x >>= g = .ok b ↔ ∃ a, x = .ok a ∧ g a = .ok b := by
  cases x with
  | error e =>
      constructor
      · intro h
        cases h
      · rintro ⟨a, h, -⟩
        cases h
  | ok a =>
      constructor
      · exact fun h => ⟨a, rfl, h⟩
      · rintro ⟨a', h, hg⟩
        cases h
        exact hg

theorem foldlM_snoc (f : α → ι → Except ε α) (s : α) (us : List ι) (u : ι) :
    (us ++ [u]).foldlM f s = us.foldlM f s >>= fun s => f s u := by
  rw [List.foldlM_append]
  simp only [List.foldlM_cons, List.foldlM_nil, bind_pure]

/-- A body that keeps the invariant without failing brings the loop to its end. -/
theorem foldlM_pure {m : Type → Type} [Monad m] [LawfulMonad m] {f : α → ι → m α}
    {P : List ι → α → Prop} {s : α} {l : List ι} (start : P [] s)
    (step : ∀ pre u post s, l = pre ++ u :: post → P pre s →
      ∃ s', f s u = pure s' ∧ P (pre ++ [u]) s') :
    ∃ s', l.foldlM f s = pure s' ∧ P l s' := by
  induction l using List.reverseRecOn with
  | nil => exact ⟨s, rfl, start⟩
  | append_singleton l u ih =>
      obtain ⟨s₁, hrun, hinv⟩ := ih fun pre v post s heq =>
        step pre v (post ++ [u]) s (by rw [heq, List.append_assoc, List.cons_append])
      obtain ⟨s₂, hlast, hnext⟩ := step l u [] s₁ rfl hinv
      refine ⟨s₂, ?_, hnext⟩
      rw [List.foldlM_append, hrun, pure_bind, List.foldlM_cons, hlast, pure_bind,
        List.foldlM_nil]

theorem foldlM_total {f : α → ι → Except ε α} {P : List ι → α → Prop} {s : α} {us : List ι}
    (start : P [] s)
    (step : ∀ pre u post s, us = pre ++ u :: post → P pre s →
      ∃ s', f s u = .ok s' ∧ P (pre ++ [u]) s') :
    ∃ s', us.foldlM f s = .ok s' ∧ P us s' := foldlM_pure start step

/-- What every step of a loop that came to its end keeps. -/
theorem foldlM_keeps {f : α → ι → Except ε α} {P : List ι → α → Prop} {s t : α} {us : List ι}
    (start : P [] s)
    (step : ∀ pre u post s s', us = pre ++ u :: post → P pre s → f s u = .ok s' →
      P (pre ++ [u]) s')
    (h : us.foldlM f s = .ok t) : P us t := by
  induction us using List.reverseRecOn generalizing t with
  | nil =>
      cases h
      exact start
  | append_singleton us u ih =>
      rw [foldlM_snoc, bind_eq_ok] at h
      obtain ⟨s₁, hrun, hlast⟩ := h
      have hinv : P us s₁ := ih (fun pre v post s s' heq =>
        step pre v (post ++ [u]) s s' (by rw [heq, List.append_assoc, List.cons_append])) hrun
      exact step us u [] s₁ t rfl hinv hlast

end HftProj.Lib.Fallible
