import HftProj.Testkit.FoldJournal

/-!
# The composite commit

Folding the span values one by one is applying the composites of any segmentation in order, and
also applying once what the tree makes of them.
-/

namespace HftProj.Testkit

open HftProj.Lib

theorem segCompose_assoc (a b c : BitVec 32 × U64) :
    segCompose (segCompose a b) c = segCompose a (segCompose b c) :=
  Segments.compose_assoc segment_law a b c

theorem segCompose_zero (a : BitVec 32 × U64) : segCompose a (0, 0) = a := by
  apply Prod.ext
  · exact BitVec.add_zero a.1
  · calc rotDegree 0 a.2 ^^^ 0#64 = rotDegree 0 a.2 := BitVec.xor_zero
      _ = a.2 := segment_law.rot_zero a.2

theorem rotDegree_zero (k : BitVec 32) : rotDegree k 0#64 = 0#64 := by
  have hself := segment_law.rot_op k 0#64 0#64
  rw [BitVec.xor_self] at hself
  rw [hself, BitVec.xor_self]

theorem zero_segCompose (a : BitVec 32 × U64) : segCompose (0, 0) a = a := by
  apply Prod.ext
  · exact BitVec.zero_add a.1
  · calc rotDegree a.1 0#64 ^^^ a.2 = 0#64 ^^^ a.2 := by rw [rotDegree_zero]
      _ = a.2 := BitVec.zero_xor

/-- The composite record of a segment. -/
def segmentLeaf (vs : List U64) : BitVec 32 × U64 :=
  (BitVec.ofNat 32 vs.length, foldComposeB (vs.map foldTerm))

/-- The composites of a segmentation, applied in order. -/
theorem foldl_segmentLeaf (segs : List (List U64)) (h : U64)
    (hlen : ∀ vs ∈ segs, vs.length < 2 ^ 32) :
    (segs.map segmentLeaf).foldl applyLeaf h = segs.flatten.foldl foldStep h := by
  induction segs generalizing h with
  | nil => rfl
  | cons vs segs ih =>
      rw [List.map_cons, List.foldl_cons, List.flatten_cons, List.foldl_append,
        ih _ fun ws hws => hlen ws (List.mem_cons_of_mem vs hws), segmentLeaf,
        applyLeaf_composeB h vs (hlen vs (List.mem_cons_self ..))]

/-- Every segmentation, applied segment by segment or through the tree, is the value-by-value
fold; the records are a monoid. -/
theorem composite_commit (segs : List (List U64)) (h : U64)
    (hlen : foldRot * segs.flatten.length < 2 ^ 32) :
    (segs.flatten.foldl foldStep h =
        (segs.map segmentLeaf).foldl (fun h s => foldComposeApply h s.1 s.2) h ∧
      segs.flatten.foldl foldStep h =
        foldComposeApply h (treeFoldSegments (segs.map segmentLeaf)).1
          (treeFoldSegments (segs.map segmentLeaf)).2) ∧
      (∀ a b c, segCompose (segCompose a b) c = segCompose a (segCompose b c)) ∧
      ∀ a, segCompose a (0, 0) = a ∧ segCompose (0, 0) a = a := by
  have hsegs : ∀ vs ∈ segs, vs.length < 2 ^ 32 := by
    intro vs hvs
    have hle := (List.sublist_flatten_of_mem hvs).length_le
    rw [foldRot] at hlen
    omega
  have hserial := foldl_segmentLeaf segs h hsegs
  refine ⟨⟨hserial.symm, ?_⟩, segCompose_assoc, fun a => ⟨segCompose_zero a, zero_segCompose a⟩⟩
  rw [← hserial]
  exact (applyLeaf_tree h (segs.map segmentLeaf)).symm

theorem composite_commit_three :
    let segs : List (List U64) := [[5, 6], [], [7]]
    foldRot * segs.flatten.length < 2 ^ 32 ∧
      [5, 6, 7].foldl foldStep 9 =
        foldComposeApply 9 (treeFoldSegments (segs.map segmentLeaf)).1
          (treeFoldSegments (segs.map segmentLeaf)).2 :=
  ⟨by decide, (composite_commit [[5, 6], [], [7]] 9 (by decide)).1.2⟩

end HftProj.Testkit
