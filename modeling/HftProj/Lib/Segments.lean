import Mathlib.Algebra.Group.Defs
import Mathlib.Logic.Function.Basic
import Mathlib.Tactic.Common

/-!
# Segments of an affine chain

A chain `h ← rot h ⊕ u` is cut into segments: a degree and a constant that act on the chain
value at the segment's start. Segments compose, so that a list of them can be evaluated in
any bracketing; the in-place pairwise sweep is one.
-/

namespace HftProj.Lib

namespace Segments

variable {K A : Type*} [AddMonoid K]

/-- Degrees act by maps that distribute over the operation. -/
structure Law (rot : K → A → A) (op : A → A → A) : Prop where
  assoc : ∀ x y z, op (op x y) z = op x (op y z)
  rot_zero : ∀ x, rot 0 x = x
  rot_add : ∀ a b x, rot (a + b) x = rot b (rot a x)
  rot_op : ∀ a x y, rot a (op x y) = op (rot a x) (rot a y)

variable (rot : K → A → A) (op : A → A → A)

/-- The chain value behind a segment. -/
def act (h : A) (s : K × A) : A := op (rot s.1 h) s.2

/-- The segment of two consecutive ones. -/
def compose (a b : K × A) : K × A := (a.1 + b.1, op (rot b.1 a.2) b.2)

variable {rot op}

theorem act_compose (law : Law rot op) (h : A) (a b : K × A) :
    act rot op h (compose rot op a b) = act rot op (act rot op h a) b := by
  calc act rot op h (compose rot op a b)
      = op (rot b.1 (rot a.1 h)) (op (rot b.1 a.2) b.2) := by
        rw [act, compose, law.rot_add]
    _ = op (op (rot b.1 (rot a.1 h)) (rot b.1 a.2)) b.2 := (law.assoc _ _ _).symm
    _ = act rot op (act rot op h a) b := by rw [act, act, law.rot_op]

theorem compose_assoc (law : Law rot op) (a b c : K × A) :
    compose rot op (compose rot op a b) c = compose rot op a (compose rot op b c) := by
  apply Prod.ext
  · exact add_assoc a.1 b.1 c.1
  · calc op (rot c.1 (op (rot b.1 a.2) b.2)) c.2
        = op (op (rot c.1 (rot b.1 a.2)) (rot c.1 b.2)) c.2 := by rw [law.rot_op]
      _ = op (rot c.1 (rot b.1 a.2)) (op (rot c.1 b.2) c.2) := law.assoc _ _ _
      _ = op (rot (b.1 + c.1) a.2) (op (rot c.1 b.2) c.2) := by rw [law.rot_add]

end Segments

namespace UpSweep

variable {M H : Type*}

/-- One level of the sweep: every second entry at the stride takes in the one behind it. -/
@[grind =]
def level (f : M → M → M) (n stride i : ℕ) (a : ℕ → M) : ℕ → M :=
  if 0 < stride ∧ i + stride < n then
    level f n stride (i + 2 * stride) (Function.update a i (f (a i) (a (i + stride))))
  else a
termination_by n - i

/-- The levels, from a stride on. -/
@[grind =]
def sweep (f : M → M → M) (n stride : ℕ) (a : ℕ → M) : ℕ → M :=
  if 0 < stride ∧ stride < n then sweep f n (2 * stride) (level f n stride 0 a) else a
termination_by n - stride

variable {f : M → M → M} {act : H → M → H} {n stride i : ℕ} {a : ℕ → M}

/-- The entries of an array from a place on, acting one after the other. -/
def runFrom (act : H → M → H) (a : ℕ → M) (i len : ℕ) (h : H) : H :=
  (List.range' i len).foldl (fun h j => act h (a j)) h

theorem runFrom_append (i m k : ℕ) (h : H) :
    runFrom act a i (m + k) h = runFrom act a (i + m) k (runFrom act a i m h) := by
  unfold runFrom
  rw [← List.foldl_append, List.range'_append_1]

/-- Each entry at a multiple of the stride acts as its block of the original array. -/
def Blocks (act : H → M → H) (orig a : ℕ → M) (n stride : ℕ) : Prop :=
  ∀ i h, stride ∣ i → i < n → act h (a i) = runFrom act orig i (min stride (n - i)) h

/-- A level leaves alone what lies before its cursor, and an entry with none a stride behind. -/
theorem level_of_ne {j : ℕ} (h : j < i ∨ n ≤ j + stride) : level f n stride i a j = a j := by
  induction i, a using level.induct f n stride with
  | case1 i a hmore ih =>
      rw [level, if_pos hmore, ih (by omega), Function.update_of_ne (by omega)]
  | case2 i a hdone => rw [level, if_neg hdone]

/-- At its places a level combines an entry with the one a stride behind it. -/
theorem level_at {k : ℕ} (hpos : 0 < stride) (hk : i + 2 * stride * k + stride < n) :
    level f n stride i a (i + 2 * stride * k) =
      f (a (i + 2 * stride * k)) (a (i + 2 * stride * k + stride)) := by
  induction k generalizing i a with
  | zero =>
      have hmore : 0 < stride ∧ i + stride < n := ⟨hpos, by omega⟩
      rw [level, if_pos hmore, Nat.mul_zero, Nat.add_zero, level_of_ne (Or.inl (by omega)),
        Function.update_self]
  | succ k ih =>
      have hmul : 2 * stride * (k + 1) = 2 * stride * k + 2 * stride := Nat.mul_succ _ _
      have hstep : i + 2 * stride * (k + 1) = i + 2 * stride + 2 * stride * k := by omega
      have hmore : 0 < stride ∧ i + stride < n := ⟨hpos, by omega⟩
      rw [level, if_pos hmore, hstep, ih (by omega), Function.update_of_ne (by omega),
        Function.update_of_ne (by omega)]

theorem level_blocks {orig : ℕ → M} (hact : ∀ h a b, act h (f a b) = act (act h a) b)
    (hpos : 0 < stride) (h : Blocks act orig a n stride) :
    Blocks act orig (level f n stride 0 a) n (2 * stride) := by
  intro i x hi hlt
  obtain ⟨k, rfl⟩ := hi
  have hdvd : stride ∣ 2 * stride * k := ⟨2 * k, by rw [Nat.mul_comm 2 stride, Nat.mul_assoc]⟩
  rcases Nat.lt_or_ge (2 * stride * k + stride) n with hmore | hdone
  · have hlev := level_at (f := f) (a := a) (i := 0) hpos (by simpa using hmore)
    simp only [Nat.zero_add] at hlev
    have hnext : stride ∣ 2 * stride * k + stride := Nat.dvd_add hdvd (Nat.dvd_refl _)
    have hmin : min stride (n - 2 * stride * k) = stride := by omega
    have hmin2 : min (2 * stride) (n - 2 * stride * k) =
        stride + min stride (n - (2 * stride * k + stride)) := by omega
    rw [hlev, hact, h _ _ hdvd hlt, h _ _ hnext hmore, hmin, hmin2, runFrom_append]
  · have hsame : level f n stride 0 a (2 * stride * k) = a (2 * stride * k) :=
      level_of_ne (Or.inr hdone)
    have hmin : min stride (n - 2 * stride * k) = min (2 * stride) (n - 2 * stride * k) := by omega
    rw [hsame, h _ _ hdvd hlt, hmin]

theorem sweep_blocks {orig : ℕ → M} (hact : ∀ h a b, act h (f a b) = act (act h a) b)
    (hpos : 0 < stride) (h : Blocks act orig a n stride) :
    ∀ x, 0 < n → act x (sweep f n stride a 0) = runFrom act orig 0 n x := by
  induction stride, a using sweep.induct f n with
  | case1 stride a hmore ih =>
      rw [sweep, if_pos hmore]
      exact ih (by omega) (level_blocks hact hpos h)
  | case2 stride a hdone =>
      intro x hn
      rw [sweep, if_neg hdone, h 0 x (Nat.dvd_zero _) hn]
      congr 1
      omega

/-- What the sweep leaves in the first entry acts as the whole array in order. -/
theorem act_sweep (hact : ∀ h a b, act h (f a b) = act (act h a) b) (hn : 0 < n) (x : H) :
    act x (sweep f n 1 a 0) = runFrom act a 0 n x := by
  refine sweep_blocks hact Nat.one_pos (fun i h _ hi => ?_) x hn
  have hmin : min 1 (n - i) = 1 := by omega
  rw [hmin]
  rfl

theorem runFrom_eq_foldl {items : List M} (x : H)
    (ha : ∀ j, (hj : j < items.length) → a j = items[j]) :
    runFrom act a 0 items.length x = items.foldl act x := by
  have hmap : (List.range' 0 items.length).map a = items :=
    List.ext_getElem (by simp) fun j _ hj => by simp [ha j hj]
  unfold runFrom
  rw [← List.foldl_map (f := a) (g := act), hmap]

end UpSweep

end HftProj.Lib
