import HftProj.Lib.Rotation
import HftProj.Lib.Segments
import Mathlib.Data.List.TakeWhile

/-!
# The ordered fold and its journal

The fold of the span values is a chain of rotations and XORs. Consecutive spans are
composed into records, and the records of a pass wait in a journal that is evaluated as a
tree when the pass's boundary is reached.
-/

namespace HftProj.Testkit

open HftProj.Lib

abbrev U64 := BitVec 64

def foldMixP : U64 := 0x9e3779b97f4a7c15

def foldRot : ℕ := 13

def foldTerm (v : U64) : U64 := v * foldMixP

def foldStep (h v : U64) : U64 := h.rotateLeft foldRot ^^^ foldTerm v

/-- The composite constant of a segment: each term is rotated by its distance from the end. -/
def foldComposeB (terms : List U64) : U64 :=
  (terms.zipIdx).foldl
    (fun b p => b ^^^ p.1.rotateLeft ((foldRot * (terms.length - 1 - p.2)) % 64)) 0

/-- Degrees are `u32`, and so is the product with the rotation. -/
def foldComposeApply (h : U64) (k : BitVec 32) (b : U64) : U64 :=
  h.rotateLeft ((foldRot * k.toNat % 2 ^ 32) % 64) ^^^ b

def segCompose (a b : BitVec 32 × U64) : BitVec 32 × U64 :=
  (a.1 + b.1, a.2.rotateLeft ((foldRot * b.1.toNat % 2 ^ 32) % 64) ^^^ b.2)

/-- The in-place up-sweep over the leaves. -/
def treeFoldSegments (leaves : List (BitVec 32 × U64)) : BitVec 32 × U64 :=
  match leaves with
  | [] => (0, 0)
  | leaf :: rest =>
      UpSweep.sweep segCompose (rest.length + 1) 1 (fun i => (leaf :: rest).getD i leaf) 0

/-! ## The rotation ring -/

/-- The rotation of a degree. The product's wrap at `2^32` is a multiple of the word width. -/
def rotDegree (k : BitVec 32) (x : U64) : U64 := x.rotateLeft ((foldRot * k.toNat % 2 ^ 32) % 64)

theorem rotDegree_eq (k : BitVec 32) (x : U64) : rotDegree k x = x.rotateLeft (foldRot * k.toNat) := by
  rw [rotDegree, Nat.mod_mod_of_dvd _ (by decide), rotateLeft_mod]

theorem segment_law : Segments.Law rotDegree (· ^^^ ·) where
  assoc := BitVec.xor_assoc
  rot_zero x := by
    rw [rotDegree_eq]
    exact rotateLeft_zero x
  rot_add a b x := by
    rw [rotDegree_eq, rotDegree_eq, rotDegree_eq, rotateLeft_rotateLeft, BitVec.toNat_add,
      ← rotateLeft_mod, ← rotateLeft_mod x (foldRot * a.toNat + _)]
    congr 1
    unfold foldRot
    omega
  rot_op a x y := by
    rw [rotDegree_eq, rotateLeft_xor, rotDegree_eq, rotDegree_eq]

/-- A record applied to the chain is the action of a segment. -/
def applyLeaf (h : U64) (s : BitVec 32 × U64) : U64 := foldComposeApply h s.1 s.2

theorem applyLeaf_segCompose (h : U64) (a b : BitVec 32 × U64) :
    applyLeaf h (segCompose a b) = applyLeaf (applyLeaf h a) b :=
  Segments.act_compose segment_law h a b

/-- The tree evaluates the leaves as the serial chain does. -/
theorem applyLeaf_tree (h : U64) (leaves : List (BitVec 32 × U64)) :
    applyLeaf h (treeFoldSegments leaves) = leaves.foldl applyLeaf h := by
  cases leaves with
  | nil =>
      calc applyLeaf h (0, 0) = rotDegree 0 h ^^^ 0#64 := rfl
        _ = h := by rw [segment_law.rot_zero, BitVec.xor_zero]
  | cons leaf rest =>
      have hsweep := UpSweep.act_sweep (a := fun i => (leaf :: rest).getD i leaf)
        applyLeaf_segCompose (Nat.succ_pos rest.length) h
      have hrun : UpSweep.runFrom applyLeaf (fun i => (leaf :: rest).getD i leaf) 0
          (leaf :: rest).length h = (leaf :: rest).foldl applyLeaf h :=
        UpSweep.runFrom_eq_foldl h fun j hj => by simp [List.getElem?_eq_getElem hj]
      exact hsweep.trans hrun

/-! ## Composites -/

theorem foldComposeB_eq (terms : List U64) : foldComposeB terms = rotComposite foldRot terms := by
  simp only [foldComposeB, rotComposite, rotateLeft_mod]
  rfl

theorem applyLeaf_ofNat (h b : U64) {n : ℕ} (hn : n < 2 ^ 32) :
    applyLeaf h (BitVec.ofNat 32 n, b) = h.rotateLeft (foldRot * n) ^^^ b := by
  show rotDegree _ h ^^^ b = _
  rw [rotDegree_eq, BitVec.toNat_ofNat, Nat.mod_eq_of_lt hn]

/-- A record of some spans acts as their steps. -/
theorem applyLeaf_composeB (h : U64) (vs : List U64) (hlen : vs.length < 2 ^ 32) :
    applyLeaf h (BitVec.ofNat 32 vs.length, foldComposeB (vs.map foldTerm)) =
      vs.foldl foldStep h := by
  have hchain := foldl_rotate_xor foldRot h (vs.map foldTerm)
  rw [List.foldl_map, List.length_map] at hchain
  rw [applyLeaf_ofNat h _ hlen, foldComposeB_eq, ← hchain]
  rfl

theorem applyLeaf_term (h v : U64) : applyLeaf h (1, foldTerm v) = foldStep h v := rfl

/-! ## The journal -/

structure Leaf where
  seg : BitVec 32 × U64
  stop : ℕ

/-- The fold journal. `stop` is the fold position behind a leaf; without the tree the records
are applied at once. -/
structure FoldJournal where
  tree : Bool
  cap : ℕ
  leaves : List Leaf

namespace FoldJournal

def applyPrefix (hash : U64) (leaves : List Leaf) : U64 :=
  applyLeaf hash (treeFoldSegments (leaves.map Leaf.seg))

def push (J : FoldJournal) (hash : U64) (k : BitVec 32) (b : U64) (stop : ℕ) : U64 × FoldJournal :=
  if !J.tree then (applyLeaf hash (k, b), J)
  else if J.leaves.length = J.cap then
    (applyPrefix hash J.leaves, { J with leaves := [⟨(k, b), stop⟩] })
  else (hash, { J with leaves := J.leaves ++ [⟨(k, b), stop⟩] })

/-- The leaves up to a boundary are evaluated, the rest moves to the front. -/
def flushUpto (J : FoldJournal) (hash : U64) (boundary : ℕ) : U64 × FoldJournal :=
  if J.leaves = [] ∨ !J.tree then (hash, J)
  else
    let p := (J.leaves.takeWhile (·.stop ≤ boundary)).length
    if p = 0 then (hash, J)
    else (applyPrefix hash (J.leaves.take p), { J with leaves := J.leaves.drop p })

def flushAll (J : FoldJournal) (hash : U64) : U64 × FoldJournal :=
  if J.leaves = [] ∨ !J.tree then (hash, J)
  else (applyPrefix hash J.leaves, { J with leaves := [] })

/-- The chain value that a hash and the journal stand for. -/
def chain (hash : U64) (J : FoldJournal) : U64 := (J.leaves.map Leaf.seg).foldl applyLeaf hash

variable {J : FoldJournal} {hash : U64}

theorem applyPrefix_eq (leaves : List Leaf) :
    applyPrefix hash leaves = (leaves.map Leaf.seg).foldl applyLeaf hash :=
  applyLeaf_tree hash _

/-- A journal whose leaves are applied at once holds none. -/
def Clean (J : FoldJournal) : Prop := J.tree = false → J.leaves = []

theorem push_chain (hclean : J.Clean) (k : BitVec 32) (b : U64) (stop : ℕ) :
    chain (J.push hash k b stop).1 (J.push hash k b stop).2 = applyLeaf (chain hash J) (k, b) := by
  unfold push
  split_ifs with htree hfull
  · have hnil := hclean (by simpa using htree)
    simp [chain, hnil]
  · simp [chain, applyPrefix_eq]
  · simp [chain]

theorem push_clean (hclean : J.Clean) (k : BitVec 32) (b : U64) (stop : ℕ) :
    (J.push hash k b stop).2.Clean := by
  unfold push
  split_ifs with htree hfull
  · exact hclean
  · exact fun hoff => absurd hoff (by simpa using htree)
  · exact fun hoff => absurd hoff (by simpa using htree)

theorem push_stop (k : BitVec 32) (b : U64) {stop : ℕ} (h : ∀ l ∈ J.leaves, l.stop ≤ stop) :
    ∀ l ∈ (J.push hash k b stop).2.leaves, l.stop ≤ stop := by
  unfold push
  split_ifs
  · exact h
  · simp
  · intro l hl
    rcases List.mem_append.mp hl with hold | hnew
    · exact h l hold
    · rw [List.mem_singleton.mp hnew]

theorem flushUpto_chain (hclean : J.Clean) {boundary : ℕ} (h : ∀ l ∈ J.leaves, l.stop ≤ boundary) :
    (J.flushUpto hash boundary).1 = chain hash J ∧ (J.flushUpto hash boundary).2.leaves = [] ∧
      (J.flushUpto hash boundary).2.Clean := by
  have hall : J.leaves.takeWhile (·.stop ≤ boundary) = J.leaves := by
    rw [List.takeWhile_eq_self_iff]
    exact fun l hl => decide_eq_true (h l hl)
  dsimp only [flushUpto]
  rw [hall]
  split_ifs with hoff hzero
  · have hnil : J.leaves = [] := hoff.elim id fun ht => hclean (by simpa using ht)
    exact ⟨by simp [chain, hnil], hnil, hclean⟩
  · exact absurd (Or.inl (List.length_eq_zero_iff.mp hzero)) hoff
  · simp only [List.take_length, List.drop_length]
    exact ⟨applyPrefix_eq _, trivial, fun _ => rfl⟩

theorem flushAll_chain (hclean : J.Clean) :
    chain (J.flushAll hash).1 (J.flushAll hash).2 = chain hash J ∧
      (J.flushAll hash).2.leaves = [] := by
  unfold flushAll
  split_ifs with hoff
  · exact ⟨rfl, hoff.elim id fun ht => hclean (by simpa using ht)⟩
  · exact ⟨by simp [chain, applyPrefix_eq], rfl⟩

end FoldJournal

end HftProj.Testkit
