import HftProj.Lib.Chunks
import HftProj.Lib.Literals
import HftProj.Lib.TaggedMax
import Mathlib.Data.BitVec
import Mathlib.Data.Fin.VecNotation
import Mathlib.Data.List.Pairwise
import Mathlib.Order.Nat

/-!
# The book state and its signatures

A token carries two volume deltas and, where its key is not 0, a price that it sets. A chunk of
tokens has a signature: the wrapping sums and the price of the greatest key. Applying signatures
chunk by chunk gives the states that the tokens give one by one.
-/

namespace HftProj.Testkit.LobState

open HftProj.Lib

/-! ## Signatures -/

/-- A signature, and a token as the signature of itself. -/
@[ext]
structure Sig where
  db : BitVec 64
  da : BitVec 64
  px : BitVec 64
  seq : BitVec 64
  deriving DecidableEq

/-- `Sig::IDENTITY`. -/
def Sig.identity : Sig := ⟨0, 0, 0, 0⟩

/-- `sig_combine`. The keys are compared unsigned. -/
def sigCombine (x y : Sig) : Sig :=
  let useY : Bool := y.seq > x.seq
  { db := x.db + y.db
    da := x.da + y.da
    px := if useY then y.px else x.px
    seq := if useY then y.seq else x.seq }

/-- The book state. -/
@[ext]
structure Lob3 where
  b : BitVec 64
  a : BitVec 64
  p : BitVec 64
  deriving DecidableEq

def Lob3.default : Lob3 := ⟨0, 0, 0⟩

/-- `Lob3::apply`. -/
def Lob3.apply (s : Lob3) (g : Sig) : Lob3 where
  b := s.b + g.db
  a := s.a + g.da
  p := if g.seq ≠ 0 then g.px else s.p

/-! ## The folds -/

/-- `sig_fold_scalar`, from a signature on. -/
def sigFoldFrom (acc : Sig) (ts : List Sig) : Sig := ts.foldl sigCombine acc

/-- `sig_fold_scalar`. -/
def sigFoldScalar (ts : List Sig) : Sig := sigFoldFrom .identity ts

/-- The eight lanes of a register. -/
abbrev Lanes8 := Fin 8 → BitVec 64

/-- Eight elements of a column from a place on. -/
def loadu (col : ℕ → BitVec 64) (off : ℕ) : Lanes8 := fun l => col (off + l.val)

/-- `hsum512`. -/
def hsum512 (x : Lanes8) : BitVec 64 :=
  let a : Fin 4 → BitVec 64 := ![x 0 + x 1, x 2 + x 3, x 4 + x 5, x 6 + x 7]
  a 0 + a 1 + a 2 + a 3

/-- The lane sums of the next `blocks` blocks. -/
@[grind =]
def laneSums (v : ℕ → BitVec 64) : (blocks i : ℕ) → Lanes8 → Lanes8
  | 0, _, acc => acc
  | blocks + 1, i, acc => laneSums v blocks (i + 8) fun l => acc l + loadu v i l

/-- `vsum512_tree`. -/
def vsum512Tree (v : List (BitVec 64)) : BitVec 64 :=
  (v.drop (8 * (v.length / 8))).foldl (· + ·)
    (hsum512 (laneSums (fun i => v.getD i 0) (v.length / 8) 0 fun _ => 0))

/-- The lanes' tagged maxima over the next `blocks` blocks. -/
@[grind =]
def laneMaxima (seq px : ℕ → BitVec 64) :
    (blocks off : ℕ) → Lanes8 × Lanes8 → Lanes8 × Lanes8
  | 0, _, r => r
  | blocks + 1, off, (s, p) =>
      let s2 := loadu seq off
      let p2 := loadu px off
      let w l : Bool := s2 l > s l
      laneMaxima seq px blocks (off + 8)
        (fun l => if w l then s2 l else s l, fun l => if w l then p2 l else p l)

/-- `sig_fold_avx512`. -/
def sigFoldAvx512 (ts : List Sig) : Sig :=
  let nv := 8 * (ts.length / 8)
  let acc : Sig :=
    { db := vsum512Tree ((ts.take nv).map Sig.db)
      da := vsum512Tree ((ts.take nv).map Sig.da)
      px := 0
      seq := 0 }
  let seq i := (ts.getD i .identity).seq
  let px i := (ts.getD i .identity).px
  let acc :=
    if 8 ≤ nv then
      let r := laneMaxima seq px (nv / 8 - 1) 8 (loadu seq 0, loadu px 0)
      (List.finRange 8).foldl
        (fun acc l => sigCombine acc { db := 0, da := 0, px := r.2 l, seq := r.1 l }) acc
    else acc
  sigFoldFrom acc (ts.drop nv)

/-- `sig_fold` on a machine with or without the wide registers. -/
def sigFold (avx512f : Bool) (ts : List Sig) : Sig :=
  if 16 ≤ ts.length ∧ avx512f then sigFoldAvx512 ts else sigFoldScalar ts

/-- `sig_chunk_signatures`: it refuses an empty chunk length. -/
def sigChunkSignatures (avx512f : Bool) (ts : List Sig) (chunk : ℕ) : Option (List Sig) :=
  if chunk = 0 then none else some ((chunksOf chunk ts).map (sigFold avx512f))

/-- The states behind each of a list of signatures. -/
@[grind =]
def statesAfter (s : Lob3) : List Sig → List Lob3
  | [] => []
  | g :: gs => s.apply g :: statesAfter (s.apply g) gs

/-- `sig_pass_states`. -/
def sigPassStates (avx512f : Bool) (s0 : Lob3) (ts : List Sig) (chunk : ℕ) : Option (List Lob3) :=
  (sigChunkSignatures avx512f ts chunk).map (statesAfter s0)

/-! ## What a signature says -/

/-- Key and payload of the price coordinate. -/
def Sig.tag (g : Sig) : ℕ × BitVec 64 := (g.seq.toNat, g.px)

/-- The keys other than 0 increase along the list. -/
def Keyed (ts : List Sig) : Prop := ts.Pairwise fun t u => t.seq ≠ 0 → u.seq ≠ 0 → t.seq < u.seq

/-- A signature has the sums of the tokens and the price of the greatest key. -/
structure Signs (g : Sig) (ts : List Sig) : Prop where
  db : g.db = (ts.map Sig.db).sum
  da : g.da = (ts.map Sig.da).sum
  tag : TaggedMax.Holds 0 g.tag (ts.map Sig.tag)

section Signs

variable {x y g : Sig} {ts us : List Sig}

theorem tag_combine (x y : Sig) : (sigCombine x y).tag = TaggedMax.merge x.tag y.tag := by
  rcases lt_or_ge x.tag.1 y.tag.1 with hlt | hge
  · have huse : decide (y.seq > x.seq) = true := decide_eq_true (BitVec.lt_def.mpr hlt)
    rw [TaggedMax.merge, if_pos hlt]
    simp only [sigCombine, huse, if_true]
    rfl
  · have huse : decide (y.seq > x.seq) = false :=
      decide_eq_false fun h => Nat.not_lt.mpr hge (BitVec.lt_def.mp h)
    rw [TaggedMax.merge, if_neg (Nat.not_lt.mpr hge)]
    simp only [sigCombine, huse]
    rfl

theorem signs_nil : Signs .identity [] := ⟨rfl, rfl, TaggedMax.holds_nil⟩

theorem Signs.append (hx : Signs x ts) (hy : Signs y us) : Signs (sigCombine x y) (ts ++ us) := by
  constructor
  · rw [List.map_append, List.sum_append, ← hx.db, ← hy.db]
    rfl
  · rw [List.map_append, List.sum_append, ← hx.da, ← hy.da]
    rfl
  · rw [List.map_append, tag_combine]
    exact hx.tag.append hy.tag

theorem Signs.perm (h : Signs g ts) (hperm : ts.Perm us) : Signs g us := by
  constructor
  · rw [h.db]
    exact (hperm.map Sig.db).sum_eq
  · rw [h.da]
    exact (hperm.map Sig.da).sum_eq
  · exact h.tag.perm (hperm.map Sig.tag)

/-- A token added to a signature. -/
theorem Signs.snoc (h : Signs g ts) (t : Sig) : Signs (sigCombine g t) (ts ++ [t]) := by
  constructor
  · rw [List.map_append, List.sum_append, ← h.db, List.map_singleton, List.sum_singleton]
    rfl
  · rw [List.map_append, List.sum_append, ← h.da, List.map_singleton, List.sum_singleton]
    rfl
  · rw [List.map_append, List.map_singleton, tag_combine]
    exact h.tag.snoc t.tag

theorem Signs.foldl (h : Signs g ts) (us : List Sig) : Signs (sigFoldFrom g us) (ts ++ us) := by
  induction us using List.reverseRecOn with
  | nil => exact (List.append_nil ts).symm ▸ h
  | append_singleton us u ih =>
      rw [sigFoldFrom, List.foldl_append, ← List.append_assoc]
      exact ih.snoc u

theorem signs_scalar (ts : List Sig) : Signs (sigFoldScalar ts) ts := signs_nil.foldl ts

theorem Keyed.unique (h : Keyed ts) : TaggedMax.Unique (ts.map Sig.tag) := by
  have hpair : ts.Pairwise fun t u => t.tag.1 = u.tag.1 → t.tag.1 ≠ 0 → t.tag = u.tag := by
    apply List.Pairwise.imp _ h
    intro t u hlt heq hne
    have ht : t.seq ≠ 0 := fun hzero => hne (congrArg BitVec.toNat hzero)
    have hu : u.seq ≠ 0 := fun hzero => hne (heq.trans (congrArg BitVec.toNat hzero))
    have hkey := hlt ht hu
    rw [BitVec.lt_def] at hkey
    exact absurd heq (Nat.ne_of_lt hkey)
  have hflip : ts.Pairwise fun t u => u.tag.1 = t.tag.1 → u.tag.1 ≠ 0 → u.tag = t.tag :=
    hpair.imp fun {t u} hsame (heq : u.tag.1 = t.tag.1) hne =>
      (hsame heq.symm fun hzero => hne (heq.trans hzero)).symm
  have hall := List.Pairwise.forall_of_forall_of_flip (fun _ _ _ _ => rfl) hpair hflip
  intro a ha b hb heq hne
  obtain ⟨t, ht, rfl⟩ := List.mem_map.mp ha
  obtain ⟨u, hu, rfl⟩ := List.mem_map.mp hb
  exact hall ht hu heq hne

/-- Over increasing keys there is one signature. -/
theorem Signs.unique (hk : Keyed ts) (hx : Signs x ts) (hy : Signs y ts) : x = y := by
  have htag := hx.tag.unique hk.unique hy.tag
  ext1
  · exact hx.db.trans hy.db.symm
  · exact hx.da.trans hy.da.symm
  · exact congrArg Prod.snd htag
  · exact BitVec.eq_of_toNat_eq (congrArg Prod.fst htag)

end Signs

/-! ## The wide fold -/

section Wide

theorem laneSums_eq (v : ℕ → BitVec 64) (blocks i : ℕ) (acc : Lanes8) (l : Fin 8) :
    laneSums v blocks i acc l =
      acc l + (laneOf 8 blocks (fun j => v (i + j)) l).sum := by
  induction blocks generalizing i acc with
  | zero => exact (add_zero (acc l)).symm
  | succ blocks ih =>
      rw [laneSums, ih, laneOf_cons, List.sum_cons, loadu, add_assoc]
      simp only [Nat.add_assoc]

theorem hsum512_eq (x : Lanes8) : hsum512 x = ((List.finRange 8).map x).sum := by
  have hlist : List.finRange 8 = [0, 1, 2, 3, 4, 5, 6, 7] := by decide
  rw [hlist]
  simp [hsum512, add_assoc]

theorem foldl_add (a : BitVec 64) (v : List (BitVec 64)) : v.foldl (· + ·) a = a + v.sum := by
  induction v generalizing a with
  | nil => exact (add_zero a).symm
  | cons x v ih => rw [List.foldl_cons, ih, List.sum_cons, add_assoc]

/-- The lanes together sum the column. -/
theorem hsum512_laneSums (v : ℕ → BitVec 64) (blocks : ℕ) :
    hsum512 (laneSums v blocks 0 fun _ => 0) = ((List.range (8 * blocks)).map v).sum := by
  have hlane (l : Fin 8) : laneSums v blocks 0 (fun _ => 0) l = (laneOf 8 blocks v l).sum := by
    rw [laneSums_eq]
    simp only [Nat.zero_add]
    exact zero_add _
  rw [hsum512_eq, List.map_congr_left fun l _ => hlane l, ← (lanes_perm 8 blocks v).sum_eq,
    List.flatMap_def, List.sum_flatten, List.map_map]
  rfl

/-- The lane sums, finished and continued over the rest, are the sum. -/
theorem vsum512Tree_eq (v : List (BitVec 64)) : vsum512Tree v = v.sum := by
  rw [vsum512Tree, foldl_add, hsum512_laneSums, map_getD_range v 0 (Nat.mul_div_le _ _),
    List.sum_take_add_sum_drop]

theorem merge_lane (s p : BitVec 64) (t : Sig) :
    (((if decide (t.seq > s) = true then t.seq else s).toNat,
      if decide (t.seq > s) = true then t.px else p) : ℕ × BitVec 64) =
      TaggedMax.merge (s.toNat, p) t.tag := tag_combine ⟨0, 0, p, s⟩ t

/-- A lane's maximum, merged into the empty register, holds the lane. -/
theorem laneMaxima_holds (ts : List Sig) (blocks off : ℕ) (r : Lanes8 × Lanes8) (l : Fin 8)
    {H : List (ℕ × BitVec 64)}
    (h : TaggedMax.Holds 0 (TaggedMax.merge (TaggedMax.empty 0) ((r.1 l).toNat, r.2 l)) H) :
    let r' := laneMaxima (fun i => (ts.getD i .identity).seq) (fun i => (ts.getD i .identity).px)
      blocks off r
    TaggedMax.Holds 0 (TaggedMax.merge (TaggedMax.empty 0) ((r'.1 l).toNat, r'.2 l))
      (H ++ laneOf 8 blocks (fun j => (ts.getD (off + j) .identity).tag) l) := by
  induction blocks generalizing off r H with
  | zero =>
      rw [laneOf, List.range_zero, List.map_nil, List.append_nil]
      exact h
  | succ blocks ih =>
      obtain ⟨s, p⟩ := r
      have hnew : TaggedMax.Holds 0 (TaggedMax.merge (TaggedMax.merge (TaggedMax.empty 0)
          ((s l).toNat, p l)) (ts.getD (off + l.val) .identity).tag)
          (H ++ [(ts.getD (off + l.val) .identity).tag]) := h.snoc _
      rw [TaggedMax.merge_assoc, ← merge_lane] at hnew
      have hrest := ih (off + 8)
        (fun l => if decide ((ts.getD (off + l.val) .identity).seq > s l) = true then
            (ts.getD (off + l.val) .identity).seq else s l,
          fun l => if decide ((ts.getD (off + l.val) .identity).seq > s l) = true then
            (ts.getD (off + l.val) .identity).px else p l) hnew
      rw [laneOf_cons, ← List.singleton_append, ← List.append_assoc]
      simp only [Nat.add_assoc] at hrest ⊢
      exact hrest

/-- The lanes of a register, combined one after the other. -/
theorem lanes_combine (r : Lanes8 × Lanes8) (lane : Fin 8 → List (ℕ × BitVec 64))
    (hr : ∀ l, TaggedMax.Holds 0
      (TaggedMax.merge (TaggedMax.empty 0) ((r.1 l).toNat, r.2 l)) (lane l))
    (ls : List (Fin 8)) (acc : Sig) {H : List (ℕ × BitVec 64)} (h : TaggedMax.Holds 0 acc.tag H) :
    let g := ls.foldl
      (fun acc l => sigCombine acc { db := 0, da := 0, px := r.2 l, seq := r.1 l }) acc
    g.db = acc.db ∧ g.da = acc.da ∧ TaggedMax.Holds 0 g.tag (H ++ ls.flatMap lane) := by
  induction ls generalizing acc H with
  | nil => exact ⟨rfl, rfl, (List.append_nil H).symm ▸ h⟩
  | cons l ls ih =>
      have hlane := h.append (hr l)
      rw [← TaggedMax.merge_assoc, TaggedMax.merge_empty] at hlane
      obtain ⟨hdb, hda, htag⟩ :=
        ih (sigCombine acc { db := 0, da := 0, px := r.2 l, seq := r.1 l })
          ((tag_combine acc ⟨0, 0, r.2 l, r.1 l⟩).symm ▸ hlane)
      refine ⟨hdb.trans (add_zero acc.db), hda.trans (add_zero acc.da), ?_⟩
      rw [List.flatMap_cons, ← List.append_assoc]
      exact htag

/-- The wide fold has the signature of its tokens. -/
theorem signs_avx512 (ts : List Sig) : Signs (sigFoldAvx512 ts) ts := by
  have hnv : 8 * (ts.length / 8) ≤ ts.length := Nat.mul_div_le _ _
  have htags : (List.range (8 * (ts.length / 8))).map (fun j => (ts.getD j .identity).tag) =
      (ts.take (8 * (ts.length / 8))).map Sig.tag := by
    rw [← map_getD_range ts .identity hnv, List.map_map]
    rfl
  have hrest {acc : Sig} (h : Signs acc (ts.take (8 * (ts.length / 8)))) :
      Signs (sigFoldFrom acc (ts.drop (8 * (ts.length / 8)))) ts := by
    have hfold := h.foldl (ts.drop (8 * (ts.length / 8)))
    rwa [List.take_append_drop] at hfold
  simp only [sigFoldAvx512, vsum512Tree_eq]
  split
  · rename_i hblock
    have hblocks : 8 * (ts.length / 8) / 8 - 1 + 1 = ts.length / 8 := by omega
    apply hrest
    have hstart (l : Fin 8) : TaggedMax.Holds 0 (TaggedMax.merge (TaggedMax.empty 0)
        ((loadu (fun i => (ts.getD i .identity).seq) 0 l).toNat,
          loadu (fun i => (ts.getD i .identity).px) 0 l)) [(ts.getD l.val .identity).tag] := by
      rw [loadu, loadu, Nat.zero_add]
      exact TaggedMax.holds_single _
    have hlane (l : Fin 8) := laneMaxima_holds ts (8 * (ts.length / 8) / 8 - 1) 8
      (loadu (fun i => (ts.getD i .identity).seq) 0, loadu (fun i => (ts.getD i .identity).px) 0) l
      (hstart l)
    have hall (l : Fin 8) := laneOf_cons 8 (8 * (ts.length / 8) / 8 - 1)
      (fun j => (ts.getD j .identity).tag) l
    obtain ⟨hdb, hda, htag⟩ := lanes_combine _
      (laneOf 8 (ts.length / 8) fun j => (ts.getD j .identity).tag)
      (fun l => by
        rw [← hblocks, hall l]
        exact hlane l)
      (List.finRange 8)
      ⟨((ts.take (8 * (ts.length / 8))).map Sig.db).sum,
        ((ts.take (8 * (ts.length / 8))).map Sig.da).sum, 0, 0⟩ TaggedMax.holds_nil
    refine ⟨hdb, hda, ?_⟩
    rw [← htags]
    exact htag.perm (lanes_perm 8 (ts.length / 8) _)
  · rename_i hnone
    have hzero : 8 * (ts.length / 8) = 0 := by omega
    apply hrest
    rw [hzero, List.take_zero]
    exact signs_nil

theorem signs_sigFold (avx512f : Bool) (ts : List Sig) : Signs (sigFold avx512f ts) ts := by
  rw [sigFold]
  split
  · exact signs_avx512 ts
  · exact signs_scalar ts

end Wide

/-! ## Sequential application -/

section States

variable {ts us : List Sig} {avx512f : Bool}

theorem sigFold_scalar (hk : Keyed ts) : sigFold avx512f ts = sigFoldScalar ts :=
  (signs_sigFold avx512f ts).unique hk (signs_scalar ts)

theorem Keyed.left (h : Keyed (ts ++ us)) : Keyed ts := (List.pairwise_append.mp h).1

theorem Keyed.right (h : Keyed (ts ++ us)) : Keyed us := (List.pairwise_append.mp h).2.1

theorem Keyed.sublist (h : Keyed us) (hsub : ts.Sublist us) : Keyed ts := List.Pairwise.sublist hsub h

/-- A later setter has the greatest key so far. -/
theorem Keyed.last {t : Sig} (h : Keyed (ts ++ [t])) (ht : t.seq ≠ 0) :
    t.seq > (sigFoldScalar ts).seq := by
  rcases (signs_scalar ts).tag with ⟨hempty, -⟩ | ⟨hne, hmem, -⟩
  · have hzero : (sigFoldScalar ts).seq.toNat = 0 := congrArg Prod.fst hempty
    rw [gt_iff_lt, BitVec.lt_def, hzero]
    exact Nat.pos_of_ne_zero fun h₀ => ht (BitVec.eq_of_toNat_eq h₀)
  · obtain ⟨u, hu, htag⟩ := List.mem_map.mp hmem
    have hseq : u.seq = (sigFoldScalar ts).seq := BitVec.eq_of_toNat_eq (congrArg Prod.fst htag)
    have hu0 : u.seq ≠ 0 := by
      intro hzero
      apply hne
      rw [← htag]
      exact congrArg BitVec.toNat hzero
    rw [gt_iff_lt, ← hseq]
    exact (List.pairwise_append.mp h).2.2 u hu t (List.mem_singleton_self t) hu0 ht

/-- The signature of increasing tokens applies as the tokens do one by one. -/
theorem apply_scalar (hk : Keyed ts) (s : Lob3) :
    ts.foldl Lob3.apply s = s.apply (sigFoldScalar ts) := by
  induction ts using List.reverseRecOn with
  | nil =>
      ext1
      · exact (add_zero s.b).symm
      · exact (add_zero s.a).symm
      · rfl
  | append_singleton ts t ih =>
      have hfold : sigFoldScalar (ts ++ [t]) = sigCombine (sigFoldScalar ts) t := by
        rw [sigFoldScalar, sigFoldFrom, List.foldl_append]
        rfl
      rw [List.foldl_append, List.foldl_cons, List.foldl_nil, ih hk.left, hfold]
      ext1
      · exact add_assoc s.b (sigFoldScalar ts).db t.db
      · exact add_assoc s.a (sigFoldScalar ts).da t.da
      · by_cases ht : t.seq = 0
        · simp [Lob3.apply, sigCombine, ht]
        · have hset : t.seq ≠ 0#64 := ht
          simp [Lob3.apply, sigCombine, hset, hk.last ht]

theorem apply_sigFold (hk : Keyed ts) (s : Lob3) :
    s.apply (sigFold avx512f ts) = ts.foldl Lob3.apply s := by
  rw [apply_scalar hk, sigFold_scalar hk]

/-- Chunk by chunk the states are those of the tokens one by one. -/
theorem statesAfter_chunks {chunk : ℕ} (hc : 0 < chunk) (hk : Keyed ts) (s : Lob3) :
    statesAfter s ((chunksOf chunk ts).map (sigFold avx512f)) =
      (List.range ((ts.length + chunk - 1) / chunk)).map fun k =>
        (ts.take ((k + 1) * chunk)).foldl Lob3.apply s := by
  have hscan (gs : List (List Sig)) (s : Lob3) :
      statesAfter s (gs.map (sigFold avx512f)) =
        chunkScan (fun s us => s.apply (sigFold avx512f us)) s gs := by
    induction gs generalizing s with
    | nil => rfl
    | cons g gs ih => rw [List.map_cons, statesAfter, chunkScan, ih]
  rw [hscan]
  apply chunkScan_chunks hc
  intro s us hsub
  exact apply_sigFold (hk.sublist hsub) s

end States

/-! ## Any bracketing -/

/-- A bracketing of parts of a stream. -/
inductive Bracketing where
  | part (ts : List Sig)
  | node (l r : Bracketing)

namespace Bracketing

/-- The parts, from left to right. -/
def parts : Bracketing → List (List Sig)
  | part ts => [ts]
  | node l r => l.parts ++ r.parts

/-- The signatures of the parts, combined as bracketed. -/
def eval (avx512f : Bool) : Bracketing → Sig
  | part ts => sigFold avx512f ts
  | node l r => sigCombine (l.eval avx512f) (r.eval avx512f)

theorem signs (avx512f : Bool) (t : Bracketing) : Signs (t.eval avx512f) t.parts.flatten := by
  induction t with
  | part ts =>
      rw [parts, List.flatten_singleton]
      exact signs_sigFold avx512f ts
  | node l r hl hr =>
      rw [parts, List.flatten_append]
      exact hl.append hr

end Bracketing

/-- Signatures give the states of the tokens chunk by chunk, and whatever the partition, the
order of the parts and the bracketing, they combine to the signature of the stream. -/
theorem signatures_are_sequential (avx512f : Bool) {ts : List Sig} (hk : Keyed ts) :
    (∀ (s0 : Lob3) (chunk : ℕ), 0 < chunk →
      sigPassStates avx512f s0 ts chunk =
        some ((List.range ((ts.length + chunk - 1) / chunk)).map fun k =>
          (ts.take ((k + 1) * chunk)).foldl Lob3.apply s0)) ∧
      sigFoldAvx512 ts = sigFoldScalar ts ∧
      ∀ t : Bracketing, t.parts.flatten.Perm ts → t.eval avx512f = sigFoldScalar ts := by
  refine ⟨fun s0 chunk hc => ?_, ?_, fun t hperm => ?_⟩
  · rw [sigPassStates, sigChunkSignatures, if_neg (Nat.ne_of_gt hc), Option.map_some,
      statesAfter_chunks hc hk]
  · exact (signs_avx512 ts).unique hk (signs_scalar ts)
  · exact ((t.signs avx512f).perm hperm).unique hk (signs_scalar ts)

end HftProj.Testkit.LobState
