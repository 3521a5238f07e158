import Mathlib.Tactic.Common

/-!
# Computations with a state that may panic

Total correctness of a computation from one state: it returns, and what it returns meets the
postcondition. The rules follow the way a computation is put together.
-/

namespace HftProj.Lib.Stateful

variable {σ α β : Type}

/-- From `s` the computation does not panic, and it ends in `Q`. -/
def Yields (m : StateT σ Option α) (s : σ) (Q : α → σ → Prop) : Prop :=
  ∃ a s', m s = some (a, s') ∧ Q a s'

variable {m : StateT σ Option α} {f : α → StateT σ Option β} {s : σ} {Q R : α → σ → Prop}
  {S : β → σ → Prop}

theorem Yields.mono (h : Yields m s Q) (hR : ∀ a s', Q a s' → R a s') : Yields m s R := by
  obtain ⟨a, s', hrun, hQ⟩ := h
  exact ⟨a, s', hrun, hR a s' hQ⟩

theorem Yields.pure {a : α} (h : Q a s) : Yields (Pure.pure a) s Q := ⟨a, s, rfl, h⟩

theorem Yields.bind (h : Yields m s Q) (hf : ∀ a s', Q a s' → Yields (f a) s' S) :
    Yields (m >>= f) s S := by
  obtain ⟨a, s₁, hrun, hQ⟩ := h
  obtain ⟨b, s₂, hnext, hS⟩ := hf a s₁ hQ
  refine ⟨b, s₂, ?_, hS⟩
  calc
    (m >>= f) s = (m s >>= fun p => f p.1 p.2) := rfl
    _ = f a s₁ := by rw [hrun]; rfl
    _ = some (b, s₂) := hnext

theorem Yields.get_bind {f : σ → StateT σ Option β} (h : Yields (f s) s S) :
    Yields (get >>= f) s S := h

theorem Yields.set_bind {f : PUnit → StateT σ Option β} {s' : σ} (h : Yields (f ⟨⟩) s' S) :
    Yields (set s' >>= f) s S := h

theorem Yields.modify_bind {f : PUnit → StateT σ Option β} {g : σ → σ}
    (h : Yields (f ⟨⟩) (g s) S) : Yields (modify g >>= f) s S := h

end HftProj.Lib.Stateful
