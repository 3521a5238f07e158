import HftProj.Testkit.SpanLanes
import HftProj.Testkit.SpanRecord

/-!
# The span fold

A chunk's record is a sum of independent products, each shifted by the degree of what follows.
The records of any partition compose to what the message-by-message recursion returns.
-/

namespace HftProj.Testkit.SpanField

open HftProj.Lib

/-! ## The tokens -/

/-- `W_T`: the width of each type index. -/
def wT : Fin 10 → ℕ := ![36, 40, 31, 36, 23, 19, 35, 43, 40, 0]

/-- `CHUNK`. -/
def chunkLen : ℕ := 512

/-- One row of the token columns. -/
structure Token where
  ty : Fin 10
  vd : BitVec 64
  db : BitVec 64
  da : BitVec 64
  px : BitVec 32
  setp : UInt8

/-! ## The folds -/

section Folds

variable (cpu : Cpu)

/-- The state of `fold_chunk_sequential`. -/
structure ChunkWalk where
  h : BitVec 64
  db : BitVec 64
  da : BitVec 64
  px : BitVec 32
  tag : BitVec 16
  flg : BitVec 16
  w : ℕ

def ChunkWalk.step (s : ChunkWalk) (t : Token) : ChunkWalk :=
  let w := s.w + wT t.ty
  { h := mulmod cpu s.h (shiftChunk cpu (wT t.ty)) ^^^ t.vd
    db := s.db + t.db
    da := s.da + t.da
    px := if t.setp ≠ 0 then t.px else s.px
    tag := if t.setp ≠ 0 then BitVec.ofNat 16 w else s.tag
    flg := if t.setp ≠ 0 then s.flg ||| flgSetter else s.flg
    w := w }

/-- `fold_chunk_sequential`. -/
def foldChunkSequential (t : List Token) (hIn : BitVec 64) : R36 × BitVec 64 :=
  let s := t.foldl (ChunkWalk.step cpu) ⟨hIn, 0, 0, 0, 0, 0, 0⟩
  ({ v := s.h ^^^ mulmod cpu hIn (shiftChunk cpu s.w)
     db := s.db
     da := s.da
     px := s.px
     tag := s.tag
     w := BitVec.ofNat 16 s.w
     cnt := BitVec.ofNat 16 t.length
     flg := s.flg }, s.h)

/-- The state of `fold_cols`' static pass. `d` holds the degrees up to and with each message. -/
structure StaticWalk where
  w : ℕ
  d : List (BitVec 32)
  db : BitVec 64
  da : BitVec 64
  px : BitVec 32
  tag : BitVec 16
  flg : BitVec 16

def StaticWalk.new : StaticWalk := ⟨0, [], 0, 0, 0, 0, 0⟩

def StaticWalk.step (s : StaticWalk) (t : Token) : StaticWalk :=
  let w := s.w + wT t.ty
  { w := w
    d := s.d ++ [BitVec.ofNat 32 w]
    db := s.db + t.db
    da := s.da + t.da
    px := if t.setp ≠ 0 then t.px else s.px
    tag := if t.setp ≠ 0 then BitVec.ofNat 16 w else s.tag
    flg := if t.setp ≠ 0 then s.flg ||| flgSetter else s.flg }

/-- `fold_v_scalar`, on the digests and their multipliers. -/
def foldVScalar (terms : List (BitVec 64 × BitVec 64)) (v : BitVec 64) : BitVec 64 :=
  terms.foldl (fun v p => v ^^^ mulmod cpu p.1 p.2) v

/-- `fold_v_avx512`'s loop: four messages a round, into the whole register. -/
@[grind =]
def foldVLoop : List (BitVec 64 × BitVec 64) → Zmm → Zmm × List (BitVec 64 × BitVec 64)
  | p₀ :: p₁ :: p₂ :: p₃ :: rest, acc =>
      foldVLoop rest (Zmm.xor acc (lanes4 ![p₀.1, p₁.1, p₂.1, p₃.1] ![p₀.2, p₁.2, p₂.2, p₃.2]))
  | rest, acc => (acc, rest)

/-- `fold_v_avx512`. -/
def foldVAvx512 (terms : List (BitVec 64 × BitVec 64)) : BitVec 64 :=
  if terms.length < 4 then foldVScalar cpu terms 0
  else
    let loop := foldVLoop terms fun _ => 0
    let buf := evenWords loop.1
    foldVScalar cpu loop.2 (buf 0 ^^^ buf 1 ^^^ buf 2 ^^^ buf 3)

/-- `fold_cols`. -/
def foldCols (cols : List Token) (hIn : BitVec 64) : R36 × BitVec 64 :=
  if cols.length = 0 then (R36.identity, hIn)
  else
    let s := cols.foldl StaticWalk.step StaticWalk.new
    let d := s.d.map fun p => BitVec.ofNat 32 s.w - p
    let terms := (cols.map Token.vd).zip (d.map fun k => tPow cpu k.toNat)
    let v :=
      if 8 ≤ cols.length ∧ cpu.avx512f ∧ cpu.vpclmulqdq then foldVAvx512 cpu terms
      else foldVScalar cpu terms 0
    let r : R36 :=
      { v := v
        db := s.db
        da := s.da
        px := s.px
        tag := s.tag
        w := BitVec.ofNat 16 s.w
        cnt := BitVec.ofNat 16 cols.length
        flg := s.flg }
    (r, hashApply cpu hIn r)

/-- `fold_stream_cols`' loop over chunks. -/
@[grind =]
def streamLoop (cols : List Token) (acc : P64) : P64 :=
  if cols.length = 0 then acc
  else
    let r := (foldCols cpu (cols.take chunkLen) 0).1
    streamLoop (cols.drop chunkLen) (p64Compose cpu acc (P64.fromR36 cpu r))
termination_by cols.length
decreasing_by
  rw [List.length_drop, chunkLen]
  omega

/-- `fold_stream_cols`. -/
def foldStreamCols (cols : List Token) (hIn : BitVec 64) : P64 × BitVec 64 :=
  if cols.length = 0 then (P64.identity, hIn)
  else
    let acc := streamLoop cpu cols P64.identity
    (acc, hashApplyP64 cpu hIn acc)

/-- The state of `fold_stream_sequential`. -/
structure StreamWalk where
  h : BitVec 64
  db : BitVec 64
  da : BitVec 64
  px : BitVec 32
  tag : BitVec 32
  flg : BitVec 16
  deg : BitVec 32

def StreamWalk.step (s : StreamWalk) (t : Token) : StreamWalk :=
  let deg := s.deg + BitVec.ofNat 32 (wT t.ty)
  { h := mulmod cpu s.h (shiftPow cpu (wT t.ty)) ^^^ t.vd
    db := s.db + t.db
    da := s.da + t.da
    px := if t.setp ≠ 0 then t.px else s.px
    tag := if t.setp ≠ 0 then deg else s.tag
    flg := if t.setp ≠ 0 then s.flg ||| flgSetter else s.flg
    deg := deg }

/-- `fold_stream_sequential`. -/
def foldStreamSequential (t : List Token) (hIn : BitVec 64) : P64 × BitVec 64 :=
  let s := t.foldl (StreamWalk.step cpu) ⟨hIn, 0, 0, 0, 0, 0, 0⟩
  ({ v := s.h ^^^ mulmod cpu hIn (shiftPow cpu s.deg.toNat)
     c := shiftPow cpu s.deg.toNat
     db := s.db
     da := s.da
     px := s.px
     tag := s.tag
     deg := s.deg
     cnt := BitVec.ofNat 32 t.length
     flg := s.flg }, s.h)

end Folds

/-! ## The composite of a token list -/

section Composite

variable (cpu : Cpu)

/-- The record of one message. -/
def ofToken (t : Token) : P64 where
  v := t.vd
  c := tPow cpu (wT t.ty)
  db := t.db
  da := t.da
  px := if t.setp ≠ 0 then t.px else 0
  tag := if t.setp ≠ 0 then BitVec.ofNat 32 (wT t.ty) else 0
  deg := BitVec.ofNat 32 (wT t.ty)
  cnt := 1
  flg := if t.setp ≠ 0 then flgSetter else 0

/-- The records of the messages, composed in order. -/
def composite (ts : List Token) : P64 :=
  ts.foldl (fun p t => p64Compose cpu p (ofToken cpu t)) P64.identity

/-- The byte span of a token list. -/
def degree (ts : List Token) : ℕ := (ts.map fun t => wT t.ty).sum

end Composite

variable {cpu : Cpu}

theorem degree_cons (t : Token) (ts : List Token) : degree (t :: ts) = wT t.ty + degree ts := by
  rw [degree, List.map_cons, List.sum_cons, degree]

theorem degree_append (ts us : List Token) : degree (ts ++ us) = degree ts + degree us := by
  rw [degree, List.map_append, List.sum_append, degree, degree]

theorem degree_snoc (ts : List Token) (t : Token) :
    degree (ts ++ [t]) = degree ts + wT t.ty := by
  rw [degree_append, degree_cons]
  rfl

theorem wT_le (i : Fin 10) : wT i ≤ 43 := by
  fin_cases i <;> decide

theorem degree_le (ts : List Token) : degree ts ≤ 43 * ts.length := by
  induction ts with
  | nil => exact Nat.zero_le _
  | cons t ts ih =>
      have hw := wT_le t.ty
      rw [degree_cons, List.length_cons]
      omega

theorem composite_snoc (ts : List Token) (t : Token) :
    composite cpu (ts ++ [t]) = p64Compose cpu (composite cpu ts) (ofToken cpu t) := by
  rw [composite, List.foldl_append, List.foldl_cons, List.foldl_nil, composite]

theorem composite_append (ts us : List Token) :
    composite cpu (ts ++ us) = p64Compose cpu (composite cpu ts) (composite cpu us) := by
  induction us using List.reverseRecOn with
  | nil => exact (List.append_nil ts).symm ▸ (p64Compose_identity cpu (composite cpu ts)).symm
  | append_singleton us u ih =>
      rw [← List.append_assoc, composite_snoc, ih, composite_snoc, p64Compose_assoc]

theorem ofToken_sets (t : Token) : (ofToken cpu t).Sets ↔ t.setp ≠ 0 := by
  rw [P64.Sets, ofToken]
  split
  · rename_i hset
    simp [flgSetter, hset]
  · rename_i hunset
    simp [flgSetter, hunset]

theorem ofToken_clean (t : Token) : (ofToken cpu t).Clean := by
  intro hunset
  rw [ofToken_sets] at hunset
  simp [ofToken, hunset]

theorem composite_single (t : Token) : composite cpu [t] = ofToken cpu t :=
  (identity_p64Compose_iff cpu (ofToken cpu t)).mpr (ofToken_clean t)

theorem composite_cons (t : Token) (ts : List Token) :
    composite cpu (t :: ts) = p64Compose cpu (ofToken cpu t) (composite cpu ts) := by
  rw [← composite_single, ← composite_append, List.singleton_append]

/-! ### Its coordinates -/

theorem tPow_add (j k : ℕ) : mulmod cpu (tPow cpu j) (tPow cpu k) = tPow cpu (j + k) := by
  apply res_injective
  rw [res_mulmod, res_tPow, res_tPow, res_tPow, pow_add]

theorem composite_c (ts : List Token) : (composite cpu ts).c = tPow cpu (degree ts) := by
  induction ts with
  | nil => rfl
  | cons t ts ih =>
      rw [composite_cons, degree_cons, ← tPow_add, ← ih]
      rfl

theorem composite_deg (ts : List Token) :
    (composite cpu ts).deg = BitVec.ofNat 32 (degree ts) := by
  induction ts with
  | nil => rfl
  | cons t ts ih =>
      rw [composite_cons, degree_cons, BitVec.ofNat_add, ← ih]
      rfl

theorem composite_cnt (ts : List Token) :
    (composite cpu ts).cnt = BitVec.ofNat 32 ts.length := by
  induction ts with
  | nil => rfl
  | cons t ts ih =>
      rw [composite_cons, List.length_cons, Nat.add_comm, BitVec.ofNat_add, ← ih]
      rfl

/-- The setter after one more message. -/
theorem composite_snoc_px (ts : List Token) (t : Token) :
    (composite cpu (ts ++ [t])).px = if t.setp ≠ 0 then t.px else (composite cpu ts).px := by
  rw [composite_snoc]
  by_cases hset : t.setp ≠ 0
  · simp only [p64Compose, laterSetter_of_sets _ _ ((ofToken_sets t).mpr hset)]
    simp [ofToken, hset]
  · simp only [p64Compose, laterSetter_of_unset _ _ (fun h => hset ((ofToken_sets t).mp h))]
    simp [hset]

theorem composite_snoc_tag (ts : List Token) (t : Token) :
    (composite cpu (ts ++ [t])).tag =
      if t.setp ≠ 0 then BitVec.ofNat 32 (degree ts + wT t.ty) else (composite cpu ts).tag := by
  rw [composite_snoc]
  by_cases hset : t.setp ≠ 0
  · simp only [p64Compose, laterSetter_of_sets _ _ ((ofToken_sets t).mpr hset), composite_deg]
    simp [ofToken, hset, BitVec.ofNat_add]
  · simp only [p64Compose, laterSetter_of_unset _ _ (fun h => hset ((ofToken_sets t).mp h))]
    simp [hset]

theorem composite_snoc_flg (ts : List Token) (t : Token) :
    (composite cpu (ts ++ [t])).flg =
      if t.setp ≠ 0 then (composite cpu ts).flg ||| flgSetter else (composite cpu ts).flg := by
  rw [composite_snoc]
  by_cases hset : t.setp ≠ 0 <;> simp [p64Compose, ofToken, hset]

/-! ## The message-by-message recursion -/

theorem streamWalk_spec (ts : List Token) (hIn : BitVec 64) :
    ts.foldl (StreamWalk.step cpu) ⟨hIn, 0, 0, 0, 0, 0, 0⟩ =
      { h := hashApplyP64 cpu hIn (composite cpu ts)
        db := (composite cpu ts).db
        da := (composite cpu ts).da
        px := (composite cpu ts).px
        tag := (composite cpu ts).tag
        flg := (composite cpu ts).flg
        deg := (composite cpu ts).deg } := by
  induction ts using List.reverseRecOn with
  | nil =>
      have hsame : hashApplyP64 cpu hIn P64.identity = hIn :=
        (BitVec.xor_zero).trans (mulmod_one cpu hIn)
      rw [List.foldl_nil]
      exact congrArg (fun h => (⟨h, 0, 0, 0, 0, 0, 0⟩ : StreamWalk)) hsame.symm
  | append_singleton ts t ih =>
      have hhash : mulmod cpu (hashApplyP64 cpu hIn (composite cpu ts))
          (shiftPow cpu (wT t.ty)) ^^^ t.vd =
          hashApplyP64 cpu hIn (composite cpu (ts ++ [t])) := by
        rw [composite_snoc, shiftPow_eq_tPow]
        apply res_injective
        simp only [hashApplyP64, p64Compose, ofToken, res_xor, res_mulmod]
        ring
      have hdeg : (composite cpu ts).deg + BitVec.ofNat 32 (wT t.ty) =
          (composite cpu (ts ++ [t])).deg := by
        rw [composite_snoc]
        rfl
      rw [List.foldl_append, List.foldl_cons, List.foldl_nil, ih]
      simp only [StreamWalk.step, hhash, hdeg, composite_snoc_px, composite_snoc_tag,
        composite_snoc_flg]
      rw [composite_deg, degree_snoc, composite_snoc]
      rfl

/-- The stream recursion returns the composite while the degree fits its field. -/
theorem foldStreamSequential_eq {ts : List Token} (hdeg : degree ts < 2 ^ 32) (hIn : BitVec 64) :
    foldStreamSequential cpu ts hIn =
      (composite cpu ts, hashApplyP64 cpu hIn (composite cpu ts)) := by
  have hexact : (composite cpu ts).deg.toNat = degree ts := by
    rw [composite_deg, BitVec.toNat_ofNat, Nat.mod_eq_of_lt hdeg]
  have hc : shiftPow cpu (composite cpu ts).deg.toNat = (composite cpu ts).c := by
    rw [hexact, shiftPow_eq_tPow, composite_c]
  have hv : hashApplyP64 cpu hIn (composite cpu ts) ^^^ mulmod cpu hIn (composite cpu ts).c =
      (composite cpu ts).v := by
    rw [hashApplyP64, BitVec.xor_comm, ← BitVec.xor_assoc, BitVec.xor_self, BitVec.zero_xor]
  simp only [foldStreamSequential, streamWalk_spec, hc, hv]
  rw [← @composite_cnt cpu]

/-! ## The chunk -/

/-- The degrees up to and with each message, from a degree on. -/
@[grind =]
def prefixDegs : ℕ → List Token → List (BitVec 32)
  | _, [] => []
  | w, t :: ts => BitVec.ofNat 32 (w + wT t.ty) :: prefixDegs (w + wT t.ty) ts

/-- The degrees behind each message. -/
@[grind =]
def suffixDegs : List Token → List (BitVec 32)
  | [] => []
  | _ :: ts => BitVec.ofNat 32 (degree ts) :: suffixDegs ts

/-- A degree behind a message is the span less the degree up to and with it. -/
theorem suffixDegs_eq (w : ℕ) (ts : List Token) :
    (prefixDegs w ts).map (fun p => BitVec.ofNat 32 (w + degree ts) - p) = suffixDegs ts := by
  induction ts generalizing w with
  | nil => rfl
  | cons t ts ih =>
      have hhead : BitVec.ofNat 32 (w + wT t.ty + degree ts) - BitVec.ofNat 32 (w + wT t.ty) =
          BitVec.ofNat 32 (degree ts) := by
        rw [BitVec.ofNat_add (w + wT t.ty), BitVec.add_comm, BitVec.add_sub_cancel]
      rw [prefixDegs, List.map_cons, degree_cons, ← Nat.add_assoc, ih, hhead, suffixDegs]

/-- The multipliers of a chunk are read inside the power table. -/
theorem suffixDegs_in_bounds {ts : List Token} (hdeg : degree ts < 2 ^ 16) :
    ∀ k ∈ suffixDegs ts, k.toNat < tLen := by
  have hlen : tLen = 2 ^ 16 := rfl
  induction ts with
  | nil => exact fun k hk => absurd hk List.not_mem_nil
  | cons t ts ih =>
      rw [degree_cons] at hdeg
      intro k hk
      rcases List.mem_cons.mp hk with rfl | hrest
      · rw [BitVec.toNat_ofNat]
        omega
      · exact ih (by omega) k hrest

theorem staticWalk_d (s : StaticWalk) (ts : List Token) :
    (ts.foldl StaticWalk.step s).d = s.d ++ prefixDegs s.w ts ∧
      (ts.foldl StaticWalk.step s).w = s.w + degree ts := by
  induction ts generalizing s with
  | nil => exact ⟨(List.append_nil s.d).symm, rfl⟩
  | cons t ts ih =>
      obtain ⟨hd, hw⟩ := ih (s.step t)
      constructor
      · rw [List.foldl_cons, hd, prefixDegs]
        exact List.append_assoc _ _ _
      · rw [List.foldl_cons, hw, degree_cons, ← Nat.add_assoc]
        rfl

/-- The commutative coordinates of the static pass. -/
theorem staticWalk_spec (ts : List Token) :
    let s := ts.foldl StaticWalk.step StaticWalk.new
    s.w = degree ts ∧ s.db = (composite cpu ts).db ∧ s.da = (composite cpu ts).da ∧
      s.px = (composite cpu ts).px ∧ s.flg = (composite cpu ts).flg ∧
      (degree ts < 2 ^ 16 → s.tag.setWidth 32 = (composite cpu ts).tag) := by
  induction ts using List.reverseRecOn with
  | nil => exact ⟨rfl, rfl, rfl, rfl, rfl, fun _ => rfl⟩
  | append_singleton ts t ih =>
      obtain ⟨hw, hdb, hda, hpx, hflg, htag⟩ := ih
      simp only [List.foldl_append, List.foldl_cons, List.foldl_nil, StaticWalk.step]
      rw [composite_snoc_px, composite_snoc_flg, composite_snoc_tag, degree_snoc, hw, hpx, hflg]
      refine ⟨rfl, ?_, ?_, rfl, rfl, fun hlt => ?_⟩
      · rw [composite_snoc, hdb]
        rfl
      · rw [composite_snoc, hda]
        rfl
      · split
        · apply BitVec.eq_of_toNat_eq
          rw [BitVec.toNat_setWidth, BitVec.toNat_ofNat, BitVec.toNat_ofNat]
          omega
        · exact htag (by omega)

/-! ### The payload -/

/-- The digests against their multipliers, summed. -/
def payload (cpu : Cpu) (terms : List (BitVec 64 × BitVec 64)) : BitVec 64 :=
  terms.foldr (fun p v => mulmod cpu p.1 p.2 ^^^ v) 0#64

theorem foldVScalar_eq (terms : List (BitVec 64 × BitVec 64)) (v : BitVec 64) :
    foldVScalar cpu terms v = v ^^^ payload cpu terms := by
  induction terms generalizing v with
  | nil => exact (BitVec.xor_zero).symm
  | cons p terms ih =>
      rw [foldVScalar, List.foldl_cons, ← foldVScalar, ih, BitVec.xor_assoc]
      rfl

theorem foldVScalar_zero (terms : List (BitVec 64 × BitVec 64)) :
    foldVScalar cpu terms 0 = payload cpu terms := (foldVScalar_eq terms 0).trans BitVec.zero_xor

/-- The four result words of a register, summed. -/
def evenSum (acc : Zmm) : BitVec 64 := acc 0 ^^^ acc 2 ^^^ acc 4 ^^^ acc 6

theorem evenSum_xor (a b : Zmm) : evenSum (Zmm.xor a b) = evenSum a ^^^ evenSum b := by
  simp only [evenSum, Zmm.xor]
  ac_rfl

theorem evenSum_lanes4 (a b : Fin 4 → BitVec 64) :
    evenSum (lanes4 a b) =
      mulmod cpu (a 0) (b 0) ^^^ mulmod cpu (a 1) (b 1) ^^^ mulmod cpu (a 2) (b 2) ^^^
        mulmod cpu (a 3) (b 3) := by
  rw [← mulmod4x4_eq, ← mulmod4x4_eq, ← mulmod4x4_eq, ← mulmod4x4_eq]
  rfl

/-- Every round adds its four products to the result words. -/
theorem foldVLoop_sum (terms : List (BitVec 64 × BitVec 64)) (acc : Zmm) :
    evenSum (foldVLoop terms acc).1 ^^^ payload cpu (foldVLoop terms acc).2 =
      evenSum acc ^^^ payload cpu terms := by
  induction terms, acc using foldVLoop.induct with
  | case1 acc p₀ p₁ p₂ p₃ rest ih =>
      rw [foldVLoop, ih, evenSum_xor, @evenSum_lanes4 cpu]
      simp only [payload, List.foldr_cons, Matrix.cons_val]
      ac_rfl
  | case2 acc rest hshort => rw [foldVLoop.eq_2 _ _ hshort]

theorem foldVAvx512_eq (terms : List (BitVec 64 × BitVec 64)) :
    foldVAvx512 cpu terms = payload cpu terms := by
  rw [foldVAvx512]
  split
  · exact foldVScalar_zero terms
  · have hzero : evenSum (fun _ => 0) = 0#64 := by decide
    have hsum := @foldVLoop_sum cpu terms fun _ => 0
    rw [hzero, BitVec.zero_xor] at hsum
    rw [foldVScalar_eq, ← hsum]
    rfl

/-- The suffix formula. -/
theorem payload_suffix {ts : List Token} (hdeg : degree ts < 2 ^ 32) :
    payload cpu ((ts.map Token.vd).zip ((suffixDegs ts).map fun k => tPow cpu k.toNat)) =
      (composite cpu ts).v := by
  induction ts with
  | nil => rfl
  | cons t ts ih =>
      rw [degree_cons] at hdeg
      have hexact : (BitVec.ofNat 32 (degree ts)).toNat = degree ts := by
        rw [BitVec.toNat_ofNat]
        exact Nat.mod_eq_of_lt (by omega)
      rw [composite_cons, suffixDegs, List.map_cons, List.map_cons, List.zip_cons_cons, hexact,
        ← composite_c]
      exact congrArg (mulmod cpu t.vd (composite cpu ts).c ^^^ ·) (ih (by omega))

/-! ### Its record -/

theorem composite_degree_fits {ts : List Token} (hlen : ts.length ≤ chunkLen) :
    degree ts < 2 ^ 16 := by
  have hle := degree_le ts
  have hchunk : chunkLen = 512 := rfl
  omega

theorem setWidth_ofNat {n : ℕ} (h : n < 2 ^ 16) :
    (BitVec.ofNat 16 n).setWidth 32 = BitVec.ofNat 32 n := by
  apply BitVec.eq_of_toNat_eq
  rw [BitVec.toNat_setWidth, BitVec.toNat_ofNat, BitVec.toNat_ofNat, Nat.mod_eq_of_lt h]

/-- A chunk's record, lifted, is the composite of its messages, on either path. -/
theorem foldCols_record {cols : List Token} (hlen : cols.length ≤ chunkLen) (hIn : BitVec 64) :
    P64.fromR36 cpu (foldCols cpu cols hIn).1 = composite cpu cols := by
  have hfits := composite_degree_fits hlen
  have hchunk : chunkLen = 512 := rfl
  rw [foldCols]
  split
  · rename_i hzero
    rw [List.length_eq_zero_iff.mp hzero]
    rfl
  · obtain ⟨hw, hdb, hda, hpx, hflg, htag⟩ := @staticWalk_spec cpu cols
    have hd := (staticWalk_d StaticWalk.new cols).1
    have hsuffix := suffixDegs_eq 0 cols
    have hexact : (BitVec.ofNat 16 (degree cols)).toNat = degree cols := by
      rw [BitVec.toNat_ofNat, Nat.mod_eq_of_lt hfits]
    simp only [StaticWalk.new, List.nil_append] at hd
    rw [Nat.zero_add] at hsuffix
    have hv : (if 8 ≤ cols.length ∧ cpu.avx512f ∧ cpu.vpclmulqdq then
        foldVAvx512 cpu ((cols.map Token.vd).zip ((suffixDegs cols).map fun k =>
          tPow cpu k.toNat))
        else foldVScalar cpu ((cols.map Token.vd).zip ((suffixDegs cols).map fun k =>
          tPow cpu k.toNat)) 0) = (composite cpu cols).v := by
      rw [foldVAvx512_eq, foldVScalar_zero, ite_self]
      exact payload_suffix (by omega)
    simp only [P64.fromR36, R36.c, shiftChunk]
    ext1
    · rw [← hv, ← hsuffix, ← hd, ← hw]
      rfl
    · rw [composite_c, ← hexact, ← hw]
    · exact hdb
    · exact hda
    · exact hpx
    · exact htag hfits
    · rw [composite_deg, ← setWidth_ofNat hfits, ← hw]
    · exact (setWidth_ofNat (by omega)).trans (composite_cnt cols).symm
    · exact hflg

theorem foldCols_hash {cols : List Token} (hlen : cols.length ≤ chunkLen) (hIn : BitVec 64) :
    (foldCols cpu cols hIn).2 = hashApplyP64 cpu hIn (composite cpu cols) := by
  have hrec := @foldCols_record cpu _ hlen hIn
  have happly : (foldCols cpu cols hIn).2 = hashApply cpu hIn (foldCols cpu cols hIn).1 := by
    rw [foldCols]
    split
    · exact ((BitVec.xor_zero).trans (mulmod_one cpu hIn)).symm
    · rfl
  rw [happly, ← hrec]
  rfl

/-! ## Partitions -/

theorem composeRecords_parts (parts : List (List Token))
    (hlen : ∀ p ∈ parts, p.length ≤ chunkLen) :
    composeRecords cpu (parts.map fun p => (foldCols cpu p 0).1) =
      composite cpu parts.flatten := by
  induction parts using List.reverseRecOn with
  | nil => rfl
  | append_singleton parts p ih =>
      rw [List.flatten_append, composite_append, ← ih fun q hq =>
        hlen q (List.mem_append_left _ hq), List.flatten_singleton,
        ← foldCols_record (hlen p (List.mem_append_right _ (List.mem_singleton_self p))) 0,
        List.map_append, composeRecords, List.foldl_append]
      rfl

theorem streamLoop_eq (cols pre : List Token) :
    streamLoop cpu cols (composite cpu pre) = composite cpu (pre ++ cols) := by
  induction hn : cols.length using Nat.strong_induction_on generalizing cols pre with
  | _ n ih =>
      rw [streamLoop]
      split
      · rename_i hzero
        rw [List.length_eq_zero_iff.mp hzero, List.append_nil]
      · rename_i hne
        have htake : (cols.take chunkLen).length ≤ chunkLen := List.length_take_le _ _
        have hdrop : (cols.drop chunkLen).length < n := by
          rw [List.length_drop, chunkLen]
          omega
        dsimp only
        rw [foldCols_record htake, ← composite_append, ih _ hdrop _ _ rfl, List.append_assoc,
          List.take_append_drop]

/-- The chunked fold returns the composite of the stream. -/
theorem foldStreamCols_eq (cols : List Token) (hIn : BitVec 64) :
    foldStreamCols cpu cols hIn = (composite cpu cols, hashApplyP64 cpu hIn (composite cpu cols)) := by
  rw [foldStreamCols]
  split
  · rename_i hzero
    have hsame : hashApplyP64 cpu hIn P64.identity = hIn :=
      (BitVec.xor_zero).trans (mulmod_one cpu hIn)
    rw [List.length_eq_zero_iff.mp hzero]
    exact Prod.ext rfl hsame.symm
  · have hloop := @streamLoop_eq cpu cols []
    rw [List.nil_append] at hloop
    exact congrArg (fun r => (r, hashApplyP64 cpu hIn r)) hloop

/-- A later part shifts the hash of the earlier one by its own span. -/
theorem hashMerge_composite (early late : List Token) (hlate : degree late < 2 ^ 32)
    (hIn : BitVec 64) :
    hashMerge cpu (hashApplyP64 cpu hIn (composite cpu early))
        (hashApplyP64 cpu 0 (composite cpu late)) (composite cpu late).deg.toNat =
      hashApplyP64 cpu hIn (composite cpu (early ++ late)) := by
  have hexact : (composite cpu late).deg.toNat = degree late := by
    rw [composite_deg, BitVec.toNat_ofNat, Nat.mod_eq_of_lt hlate]
  have hzero : hashApplyP64 cpu 0 (composite cpu late) = (composite cpu late).v := by
    rw [hashApplyP64]
    exact (congrArg (· ^^^ (composite cpu late).v) (zero_mulmod cpu _)).trans BitVec.zero_xor
  rw [hexact, hzero, hashMerge, shiftPow_eq_tPow, ← composite_c, composite_append]
  apply res_injective
  simp only [hashApplyP64, p64Compose, res_xor, res_mulmod]
  ring

/-! ## The chunk recursion -/

theorem chunkWalk_spec (ts : List Token) (hIn : BitVec 64) :
    let q := ts.foldl StaticWalk.step StaticWalk.new
    ts.foldl (ChunkWalk.step cpu) ⟨hIn, 0, 0, 0, 0, 0, 0⟩ =
      { h := hashApplyP64 cpu hIn (composite cpu ts)
        db := q.db
        da := q.da
        px := q.px
        tag := q.tag
        flg := q.flg
        w := q.w } := by
  induction ts using List.reverseRecOn with
  | nil =>
      have hsame : hashApplyP64 cpu hIn P64.identity = hIn :=
        (BitVec.xor_zero).trans (mulmod_one cpu hIn)
      exact congrArg (fun h => (⟨h, 0, 0, 0, 0, 0, 0⟩ : ChunkWalk)) hsame.symm
  | append_singleton ts t ih =>
      have hhash : mulmod cpu (hashApplyP64 cpu hIn (composite cpu ts))
          (shiftChunk cpu (wT t.ty)) ^^^ t.vd =
          hashApplyP64 cpu hIn (composite cpu (ts ++ [t])) := by
        rw [composite_snoc, shiftChunk]
        apply res_injective
        simp only [hashApplyP64, p64Compose, ofToken, res_xor, res_mulmod]
        ring
      simp only [List.foldl_append, List.foldl_cons, List.foldl_nil]
      rw [ih, ← hhash]
      rfl

/-- The chunk recursion agrees with the closed form. -/
theorem foldChunkSequential_eq {t : List Token} (hlen : t.length ≤ chunkLen) (hIn : BitVec 64) :
    foldChunkSequential cpu t hIn = foldCols cpu t hIn := by
  have hw : (t.foldl StaticWalk.step StaticWalk.new).w = degree t :=
    (@staticWalk_spec cpu t).1
  have hv : (foldChunkSequential cpu t hIn).1.v = (foldCols cpu t hIn).1.v := by
    have hrec : (foldCols cpu t hIn).1.v = (composite cpu t).v :=
      congrArg P64.v (foldCols_record hlen hIn)
    simp only [foldChunkSequential, chunkWalk_spec, hw, shiftChunk]
    rw [hrec, ← composite_c, hashApplyP64, BitVec.xor_comm, ← BitVec.xor_assoc, BitVec.xor_self,
      BitVec.zero_xor]
  have hh : (foldChunkSequential cpu t hIn).2 = (foldCols cpu t hIn).2 := by
    rw [foldCols_hash hlen]
    simp only [foldChunkSequential, chunkWalk_spec]
  apply Prod.ext _ hh
  apply R36.ext hv
  all_goals
    simp only [foldChunkSequential, chunkWalk_spec]
    rw [foldCols]
    split
    · rename_i hzero
      rw [List.length_eq_zero_iff.mp hzero]
      rfl
    · rfl

/-! ## The stream -/

/-- The chunked fold, the records of any partition and the merge at any split return what the
message-by-message recursion returns, and the two-level table holds the powers of `x`. -/
theorem span_fold_is_sequential (cpu : Cpu) {ts : List Token} (hdeg : degree ts < 2 ^ 32)
    (hIn : BitVec 64) :
    foldStreamCols cpu ts hIn = foldStreamSequential cpu ts hIn ∧
      (∀ parts : List (List Token), parts.flatten = ts →
        (∀ p ∈ parts, p.length ≤ chunkLen) →
        let whole := composeRecords cpu (parts.map fun p => (foldCols cpu p 0).1)
        (whole, hashApplyP64 cpu hIn whole) = foldStreamSequential cpu ts hIn) ∧
      (∀ p : List Token, p.length ≤ chunkLen →
        foldCols cpu p hIn = foldChunkSequential cpu p hIn) ∧
      (∀ early late : List Token, early ++ late = ts →
        let first := foldStreamCols cpu early hIn
        let second := foldStreamCols cpu late 0
        hashMerge cpu first.2 second.2 second.1.deg.toNat =
          (foldStreamSequential cpu ts hIn).2) ∧
      ∀ d < 2 ^ 32, poly (shiftPow cpu d) = (Polynomial.X ^ d : Polynomial (ZMod 2)) %ₘ spanQ := by
  have hseq := @foldStreamSequential_eq cpu _ hdeg hIn
  refine ⟨?_, ?_, ?_, ?_, ?_⟩
  · rw [hseq, foldStreamCols_eq]
  · intro parts hflat hlen
    dsimp only
    rw [hseq, composeRecords_parts parts hlen, hflat]
  · intro p hlen
    exact (foldChunkSequential_eq hlen hIn).symm
  · intro early late hsplit
    have hlate : degree late < 2 ^ 32 := by
      rw [← hsplit, degree_append] at hdeg
      omega
    simp only [foldStreamCols_eq, hseq, hashMerge_composite early late hlate, hsplit]
  · intro d _
    exact poly_of_res (res_shiftPow cpu d)

theorem span_fold_is_sequential_mixed :
    let ts : List Token := [⟨1, 9, 100, 0, 50, 1⟩, ⟨9, 0, 0, 0, 0, 0⟩, ⟨7, 4, 0, 3, 51, 1⟩]
    degree ts < 2 ^ 32 ∧
      foldStreamCols ⟨true, true, true⟩ ts 3 = foldStreamSequential ⟨true, true, true⟩ ts 3 :=
  ⟨by decide, (span_fold_is_sequential ⟨true, true, true⟩ (by decide) 3).1⟩

end HftProj.Testkit.SpanField
