import HftProj.Lib.Strides
import HftProj.Testkit.CrcRegister
import HftProj.Testkit.SpanHash

/-!
# The frame tag

One pass over a body takes the register up to the midpoint, goes on with it to the end beside a
fresh one, and takes eight lane registers over blocks of 64 bytes with the tail in lane 0. The
reference kernel of the sink takes the same lanes.
-/

namespace HftProj.Testkit.FrameTag

open HftProj.Lib
open CrcRegister SpanHash

/-! ## Words of a body -/

/-- An unaligned read of a qword; the hosts are little-endian. -/
def qword (body : List UInt8) (o : ℕ) : BitVec 64 := leWord 64 ((body.drop o).take 8)

/-- What a chain does with a word of each width. -/
structure Widths (σ : Type*) where
  u64 : σ → BitVec 64 → σ
  u32 : σ → BitVec 32 → σ
  u16 : σ → BitVec 16 → σ
  u8 : σ → BitVec 8 → σ

/-- Two chains side by side. -/
def Widths.both {σ : Type*} (W : Widths σ) : Widths (σ × σ) where
  u64 s w := (W.u64 s.1 w, W.u64 s.2 w)
  u32 s w := (W.u32 s.1 w, W.u32 s.2 w)
  u16 s w := (W.u16 s.1 w, W.u16 s.2 w)
  u8 s w := (W.u8 s.1 w, W.u8 s.2 w)

/-- A chain in lane 0. -/
def Widths.lane {σ : Type*} (W : Widths σ) : Widths (Fin 8 → σ) where
  u64 s w := Function.update s 0 (W.u64 (s 0) w)
  u32 s w := Function.update s 0 (W.u32 (s 0) w)
  u16 s w := Function.update s 0 (W.u16 (s 0) w)
  u8 s w := Function.update s 0 (W.u8 (s 0) w)

/-- The qword loop of a chain. -/
def qwords {σ : Type*} (W : Widths σ) (body : List UInt8) (stop i : ℕ) (s : σ) : ℕ × σ :=
  strides (show 0 < 8 by decide) (fun s i => W.u64 s (qword body i)) stop i s

/-- The loop over blocks of 64 bytes, a qword to a lane. -/
def blocks {σ : Type*} (W : Widths σ) (body : List UInt8) (s : Fin 8 → σ) : ℕ × (Fin 8 → σ) :=
  strides (show 0 < 64 by decide) (fun lanes j k => W.u64 (lanes k) (qword body (j + 8 * k)))
    body.length 0 s

/-! ## The kernel of the ring -/

/-- A chain up to an end: qwords, then four, two and one bytes. -/
def chain {σ : Type*} (W : Widths σ) (body : List UInt8) (stop i : ℕ) (s : σ) : ℕ × σ :=
  let p := qwords W body stop i s
  let p := if stop - p.1 ≥ 4 then (p.1 + 4, W.u32 p.2 (leWord 32 ((body.drop p.1).take 4))) else p
  let p := if stop - p.1 ≥ 2 then (p.1 + 2, W.u16 p.2 (leWord 16 ((body.drop p.1).take 2))) else p
  if p.1 < stop then (p.1 + 1, W.u8 p.2 (body.getD p.1 0).toBitVec) else p

/-- `crc32c_u64`, `crc32c_u32`, `crc32c_u16` and `crc32c_u8`. -/
def registers (x86 : Bool) : Widths (BitVec 32) :=
  ⟨crc32cU64 x86, crc32cU32 x86, crc32cU16 x86, crc32cU8 x86⟩

@[ext]
structure AffineTagCore where
  prefixCrc : BitVec 32
  cumCrc : BitVec 32
  rawCrc : BitVec 32
  lanes : Fin 8 → BitVec 32

/-- `affine_frame_tag`. -/
def affineFrameTag (x86 : Bool) (body : List UInt8) : AffineTagCore :=
  let len := body.length
  let h := len / 2
  let first := chain (registers x86) body h 0 0#32
  let second := chain (registers x86).both body len first.1 (first.2, 0#32)
  let block := blocks (registers x86) body fun _ => 0#32
  let tail := chain (registers x86).lane body len block.1 block.2
  { prefixCrc := first.2
    cumCrc := second.2.1
    rawCrc := second.2.2
    lanes := tail.2 }

/-! ## The reference kernel -/

/-- `crc_w` over the bytes of a word. -/
def crcW (k : ℕ) {n : ℕ} (c : BitVec 32) (w : BitVec n) : BitVec 32 :=
  ((List.range k).map (leByte w)).foldl crc8 c

/-- The instructions of the sink, or its portable rounds. -/
def sinkRegisters (x86 : Bool) : Widths (BitVec 32) :=
  if x86 then
    ⟨fun c w => (mmCrc32U64 (c.setWidth 64) w).setWidth 32, mmCrc32, mmCrc32, mmCrc32⟩
  else ⟨crcW 8, crcW 4, crcW 2, crc8⟩

/-- The tail of the sink's kernel. -/
def sinkTail {σ : Type*} (W : Widths σ) (body : List UInt8) (i : ℕ) (s : σ) : ℕ × σ :=
  let len := body.length
  let p := qwords W body len i s
  let p := if p.1 + 4 ≤ len then (p.1 + 4, W.u32 p.2 (leWord 32 ((body.drop p.1).take 4))) else p
  let p := if p.1 + 2 ≤ len then (p.1 + 2, W.u16 p.2 (leWord 16 ((body.drop p.1).take 2))) else p
  if p.1 < len then (p.1 + 1, W.u8 p.2 (body.getD p.1 0).toBitVec) else p

/-- The lane registers of `span_crc32c_8lane`. -/
def sinkLanes (x86 : Bool) (body : List UInt8) : Fin 8 → BitVec 32 :=
  let block := blocks (sinkRegisters x86) body fun _ => 0#32
  (sinkTail (sinkRegisters x86).lane body block.1 block.2).2

/-- The kernel that the process resolves once. -/
inductive Mode where
  | portable
  | pclmul
  | vec256
  deriving DecidableEq

/-- `spanhash64`. -/
def spanhash64 (mode : Mode) (words : Fin 4 → BitVec 64) (len : BitVec 32) : BitVec 64 :=
  match mode with
  | .portable => spanhash64Portable words len
  | .pclmul => spanhash64Pclmul words len
  | .vec256 => spanhash64Vec256 words len

/-- `spanhash64_lanes`: two lanes to a word. -/
def spanhash64Lanes (mode : Mode) (lanes : Fin 8 → BitVec 32) (len : ℕ) : BitVec 64 :=
  let words : Fin 4 → BitVec 64 :=
    ![(lanes 0).setWidth 64 ||| (lanes 1).setWidth 64 <<< 32,
      (lanes 2).setWidth 64 ||| (lanes 3).setWidth 64 <<< 32,
      (lanes 4).setWidth 64 ||| (lanes 5).setWidth 64 <<< 32,
      (lanes 6).setWidth 64 ||| (lanes 7).setWidth 64 <<< 32]
  spanhash64 mode words (BitVec.ofNat 32 len)

/-- `span_lane_combine`. -/
def spanLaneCombine (mode : Mode) (lanes : Fin 8 → BitVec 32) (len : ℕ) : BitVec 64 :=
  spanhash64Lanes mode lanes len

/-- `span_crc32c_8lane_from_tags`. -/
def spanCrc32c8laneFromTags (mode : Mode) (lanes : Fin 8 → BitVec 32) (len : ℕ) : BitVec 64 :=
  spanLaneCombine mode lanes len

/-- `span_crc32c_8lane`. -/
def spanCrc32c8lane (x86 : Bool) (mode : Mode) (body : List UInt8) : BitVec 64 :=
  spanLaneCombine mode (sinkLanes x86 body) body.length

/-! ## Grouping -/

section Grouping

variable {σ : Type*}

/-- Every width takes its word as the bytes one after the other. -/
structure Widths.Lawful (W : Widths σ) (byte : σ → UInt8 → σ) : Prop where
  u64 : ∀ s bytes, bytes.length = 8 → W.u64 s (leWord 64 bytes) = bytes.foldl byte s
  u32 : ∀ s bytes, bytes.length = 4 → W.u32 s (leWord 32 bytes) = bytes.foldl byte s
  u16 : ∀ s bytes, bytes.length = 2 → W.u16 s (leWord 16 bytes) = bytes.foldl byte s
  u8 : ∀ s (b : UInt8), W.u8 s b.toBitVec = byte s b

variable {W : Widths σ} {byte : σ → UInt8 → σ}

theorem foldl_both (byte : σ → UInt8 → σ) (bytes : List UInt8) (s : σ × σ) :
    bytes.foldl (fun s b => (byte s.1 b, byte s.2 b)) s =
      (bytes.foldl byte s.1, bytes.foldl byte s.2) := by
  induction bytes generalizing s with
  | nil => rfl
  | cons b bytes ih => exact ih _

theorem foldl_lane (byte : σ → UInt8 → σ) (bytes : List UInt8) (s : Fin 8 → σ) :
    bytes.foldl (fun s b => Function.update s 0 (byte (s 0) b)) s =
      Function.update s 0 (bytes.foldl byte (s 0)) := by
  induction bytes generalizing s with
  | nil => exact (Function.update_eq_self 0 s).symm
  | cons b bytes ih =>
      rw [List.foldl_cons, ih, Function.update_idem, Function.update_self, List.foldl_cons]

theorem Widths.Lawful.both (h : W.Lawful byte) :
    W.both.Lawful fun s b => (byte s.1 b, byte s.2 b) where
  u64 s bytes hlen := by
    rw [foldl_both, ← h.u64 s.1 bytes hlen, ← h.u64 s.2 bytes hlen]
    rfl
  u32 s bytes hlen := by
    rw [foldl_both, ← h.u32 s.1 bytes hlen, ← h.u32 s.2 bytes hlen]
    rfl
  u16 s bytes hlen := by
    rw [foldl_both, ← h.u16 s.1 bytes hlen, ← h.u16 s.2 bytes hlen]
    rfl
  u8 s b := Prod.ext (h.u8 s.1 b) (h.u8 s.2 b)

theorem Widths.Lawful.lane (h : W.Lawful byte) :
    W.lane.Lawful fun s b => Function.update s 0 (byte (s 0) b) where
  u64 s bytes hlen := by
    rw [foldl_lane, ← h.u64 (s 0) bytes hlen]
    rfl
  u32 s bytes hlen := by
    rw [foldl_lane, ← h.u32 (s 0) bytes hlen]
    rfl
  u16 s bytes hlen := by
    rw [foldl_lane, ← h.u16 (s 0) bytes hlen]
    rfl
  u8 s b := congrArg (Function.update s 0) (h.u8 (s 0) b)

/-- The cursor of a chain and the fold over the bytes behind it. -/
def Reached (byte : σ → UInt8 → σ) (body : List UInt8) (stop start : ℕ) (s₀ : σ) (i : ℕ) (s : σ) :
    Prop :=
  start ≤ i ∧ i ≤ stop ∧ s = ((body.take i).drop start).foldl byte s₀

variable {body : List UInt8} {stop start i : ℕ} {s₀ s : σ}

theorem Reached.refl (hi : start ≤ stop) : Reached byte body stop start s₀ start s₀ :=
  ⟨Nat.le_refl start, hi, by rw [List.drop_take_self, List.foldl_nil]⟩

/-- What is left before the end is compared with a width. -/
theorem Reached.fits (h : Reached byte body stop start s₀ i s) (k : ℕ) :
    stop - i ≥ k ↔ i + k ≤ stop := by
  have hstop := h.2.1
  omega

/-- A word of `k` bytes moves the cursor by `k`. -/
theorem Reached.step (h : Reached byte body stop start s₀ i s) (hbody : stop ≤ body.length) {k : ℕ}
    (hk : i + k ≤ stop) {s' : σ} (hs : s' = ((body.drop i).take k).foldl byte s) :
    Reached byte body stop start s₀ (i + k) s' := by
  obtain ⟨hstart, hstop, hfold⟩ := h
  have hlen : start ≤ (body.take i).length := by
    rw [List.length_take]
    omega
  have hsplit : (body.take (i + k)).drop start =
      (body.take i).drop start ++ (body.drop i).take k := by
    rw [List.take_add, List.drop_append_of_le_length hlen]
  refine ⟨hstart.trans (Nat.le_add_right i k), hk, ?_⟩
  rw [hs, hfold, hsplit, List.foldl_append]

theorem take_length {k : ℕ} (hk : i + k ≤ body.length) : ((body.drop i).take k).length = k := by
  rw [List.length_take, List.length_drop]
  omega

/-- The qword loop stops less than a qword before the end. -/
theorem reached_qwords (hW : W.Lawful byte) (hbody : stop ≤ body.length)
    (h : Reached byte body stop start s₀ i s) :
    Reached byte body stop start s₀ (qwords W body stop i s).1 (qwords W body stop i s).2 ∧
      stop < (qwords W body stop i s).1 + 8 := by
  refine ⟨strides_invariant _ _ _ (fun j t hj ht => ?_) h, strides_done _ _ _ _ _⟩
  apply ht.step hbody hj
  rw [qword, hW.u64 t _ (take_length (hj.trans hbody))]

/-- A word that fits before the end is taken; one of its width no longer fits behind it. -/
theorem reached_word {p : ℕ × σ} (h : Reached byte body stop start s₀ p.1 p.2)
    (hbody : stop ≤ body.length) {k : ℕ} (hdone : stop < p.1 + 2 * k) {c : Prop} [Decidable c]
    (hc : c ↔ p.1 + k ≤ stop) {s' : σ}
    (hs : p.1 + k ≤ stop → s' = ((body.drop p.1).take k).foldl byte p.2) {q : ℕ × σ}
    (hq : q = if c then (p.1 + k, s') else p) :
    Reached byte body stop start s₀ q.1 q.2 ∧ stop < q.1 + k := by
  rcases Nat.lt_or_ge stop (p.1 + k) with hout | hfits
  · rw [if_neg (fun hin => Nat.not_le.mpr hout (hc.mp hin))] at hq
    rw [hq]
    exact ⟨h, hout⟩
  · rw [if_pos (hc.mpr hfits)] at hq
    rw [hq]
    exact ⟨h.step hbody hfits (hs hfits), by dsimp only; omega⟩

/-- Nothing is left before the end. -/
theorem reached_end {p : ℕ × σ} (h : Reached byte body stop start s₀ p.1 p.2)
    (hdone : stop < p.1 + 1) : p = (stop, ((body.take stop).drop start).foldl byte s₀) := by
  have hstop : p.1 = stop := Nat.le_antisymm h.2.1 (Nat.le_of_lt_succ hdone)
  refine Prod.ext hstop ?_
  rw [h.2.2, hstop]

theorem take_one (hi : i < body.length) : (body.drop i).take 1 = [body.getD i 0] := by
  rw [List.drop_eq_getElem_cons hi, List.take_succ_cons, List.take_zero,
    List.getD_eq_getElem _ _ hi]

theorem Widths.Lawful.last (hW : W.Lawful byte) (hi : i + 1 ≤ body.length) :
    W.u8 s (body.getD i 0).toBitVec = ((body.drop i).take 1).foldl byte s := by
  rw [take_one hi, hW.u8, List.foldl_cons, List.foldl_nil]

/-- A chain takes the bytes up to its end. -/
theorem chain_eq (hW : W.Lawful byte) (hbody : stop ≤ body.length) (hi : start ≤ stop) :
    chain W body stop start s₀ = (stop, ((body.take stop).drop start).foldl byte s₀) := by
  have h : Reached byte body stop start s₀ start s₀ := Reached.refl hi
  obtain ⟨h₈, hdone₈⟩ := reached_qwords hW hbody h
  obtain ⟨h₄, hdone₄⟩ := reached_word h₈ hbody (k := 4) hdone₈ (h₈.fits 4)
    (fun hfits => hW.u32 _ _ (take_length (hfits.trans hbody))) rfl
  obtain ⟨h₂, hdone₂⟩ := reached_word h₄ hbody (k := 2) hdone₄ (h₄.fits 2)
    (fun hfits => hW.u16 _ _ (take_length (hfits.trans hbody))) rfl
  obtain ⟨h₁, hdone₁⟩ := reached_word h₂ hbody (k := 1) hdone₂ Nat.lt_iff_add_one_le
    (fun hfits => hW.last (hfits.trans hbody)) rfl
  exact reached_end h₁ hdone₁

/-- The tail of the sink takes the bytes up to the end. -/
theorem sinkTail_eq (hW : W.Lawful byte) (hi : start ≤ body.length) :
    sinkTail W body start s₀ = (body.length, (body.drop start).foldl byte s₀) := by
  have h : Reached byte body body.length start s₀ start s₀ := Reached.refl hi
  obtain ⟨h₈, hdone₈⟩ := reached_qwords hW (Nat.le_refl _) h
  obtain ⟨h₄, hdone₄⟩ := reached_word h₈ (Nat.le_refl _) (k := 4) hdone₈ Iff.rfl
    (fun hfits => hW.u32 _ _ (take_length hfits)) rfl
  obtain ⟨h₂, hdone₂⟩ := reached_word h₄ (Nat.le_refl _) (k := 2) hdone₄ Iff.rfl
    (fun hfits => hW.u16 _ _ (take_length hfits)) rfl
  obtain ⟨h₁, hdone₁⟩ := reached_word h₂ (Nat.le_refl _) (k := 1) hdone₂ Nat.lt_iff_add_one_le
    (fun hfits => hW.last hfits) rfl
  have hall := reached_end h₁ hdone₁
  rw [List.take_length] at hall
  exact hall

/-- The block loop stops inside the body. -/
theorem blocks_le (s : Fin 8 → σ) : (blocks W body s).1 ≤ body.length :=
  strides_invariant (P := fun j _ => j ≤ body.length) _ _ _ (fun _ _ hj _ => hj) (Nat.zero_le _)

theorem blocks_done (s : Fin 8 → σ) : body.length < (blocks W body s).1 + 64 :=
  strides_done _ _ _ _ _

end Grouping

/-! ## The kernels agree -/

theorem crcBytes_eq (c : BitVec 32) (bytes : List UInt8) :
    crcBytes c bytes = bytes.foldl (fun c b => crc8 c b.toBitVec) c := rfl

theorem registers_lawful (x86 : Bool) :
    (registers x86).Lawful fun c b => crc8 c b.toBitVec where
  u64 := crc32cU64_leWord x86
  u32 := crc32cU32_leWord x86
  u16 := crc32cU16_leWord x86
  u8 := crc32cU8_byte x86

/-- The sink and the tag kernel have the same registers. -/
theorem sinkRegisters_eq (x86 : Bool) : sinkRegisters x86 = registers x86 := by
  cases x86 with
  | true => rfl
  | false =>
      have h₈ : crc32cU64 false = crcW 8 := funext fun c => funext (portableU64_bytes c)
      have h₄ : crc32cU32 false = crcW 4 := funext fun c => funext (portableU32_bytes c)
      rw [registers, h₈, h₄]
      rfl

section Tag

variable (x86 : Bool) (body : List UInt8)

/-- The chain up to the midpoint. -/
theorem first_eq :
    chain (registers x86) body (body.length / 2) 0 0#32 =
      (body.length / 2, crcBytes 0#32 (body.take (body.length / 2))) := by
  rw [chain_eq (registers_lawful x86) (Nat.div_le_self _ 2) (Nat.zero_le _), List.drop_zero,
    crcBytes_eq]

theorem prefixCrc_eq :
    (affineFrameTag x86 body).prefixCrc = crcBytes 0#32 (body.take (body.length / 2)) :=
  congrArg Prod.snd (first_eq x86 body)

/-- The two chains behind the midpoint. -/
theorem second_eq :
    chain (registers x86).both body body.length
        (chain (registers x86) body (body.length / 2) 0 0#32).1
        ((chain (registers x86) body (body.length / 2) 0 0#32).2, 0#32) =
      (body.length, crcBytes 0#32 body, crcBytes 0#32 (body.drop (body.length / 2))) := by
  have hboth := (registers_lawful x86).both
  rw [first_eq, chain_eq hboth (Nat.le_refl _) (Nat.div_le_self _ 2), List.take_length,
    foldl_both (fun c b => crc8 c b.toBitVec), ← crcBytes_eq, ← crcBytes_eq,
    ← crcBytes_append, List.take_append_drop]

theorem cumCrc_eq : (affineFrameTag x86 body).cumCrc = crcBytes 0#32 body :=
  congrArg (fun p => p.2.1) (second_eq x86 body)

theorem rawCrc_eq :
    (affineFrameTag x86 body).rawCrc = crcBytes 0#32 (body.drop (body.length / 2)) :=
  congrArg (fun p => p.2.2) (second_eq x86 body)

/-- The lanes of the tag are the lanes of the sink. -/
theorem lanes_eq : (affineFrameTag x86 body).lanes = sinkLanes x86 body := by
  have hlane := (registers_lawful x86).lane
  have hsink : sinkLanes x86 body = (sinkTail (registers x86).lane body
      (blocks (registers x86) body fun _ => 0#32).1
      (blocks (registers x86) body fun _ => 0#32).2).2 := by
    rw [sinkLanes, sinkRegisters_eq]
  refine (congrArg Prod.snd (chain_eq hlane (Nat.le_refl _) (blocks_le _))).trans ?_
  rw [hsink, sinkTail_eq hlane (blocks_le _), List.take_length]

end Tag

/-- The instructions and the portable forms are one set of registers. -/
theorem registers_agree (x86 : Bool) : registers x86 = registers false := by
  cases x86 with
  | true =>
      have h₈ := funext fun c => funext (crc32cU64_agree c)
      have h₄ := funext fun c => funext (crc32cU32_agree c)
      have h₂ := funext fun c => funext (crc32cU16_agree c)
      have h₁ := funext fun c => funext (crc32cU8_agree c)
      rw [registers, registers, h₈, h₄, h₂, h₁]
  | false => rfl

theorem affineFrameTag_agree (x86 : Bool) (body : List UInt8) :
    affineFrameTag x86 body = affineFrameTag false body := by
  rw [affineFrameTag, registers_agree]
  rfl

/-- The kernels of the combine return one value. -/
theorem spanhash64_agree (mode : Mode) (words : Fin 4 → BitVec 64) (len : BitVec 32) :
    spanhash64 mode words len = spanhash64 .portable words len := by
  cases mode with
  | portable => rfl
  | pclmul =>
      rw [spanhash64, spanhash64, pclmul_products, portable_products, foldReduce_eq]
  | vec256 =>
      rw [spanhash64, spanhash64, vec256_products, portable_products, foldReduce_eq]

theorem spanLaneCombine_agree (mode : Mode) (lanes : Fin 8 → BitVec 32) (len : ℕ) :
    spanLaneCombine mode lanes len = spanLaneCombine .portable lanes len :=
  spanhash64_agree mode _ _

theorem sinkLanes_agree (x86 : Bool) (body : List UInt8) :
    sinkLanes x86 body = sinkLanes false body := by
  rw [← lanes_eq, ← lanes_eq, affineFrameTag_agree]

theorem spanCrc32c8lane_agree (x86 : Bool) (mode : Mode) (body : List UInt8) :
    spanCrc32c8lane x86 mode body = spanCrc32c8lane false .portable body := by
  rw [spanCrc32c8lane, sinkLanes_agree, spanLaneCombine_agree]
  rfl

/-- On either target the tag holds the byte registers of the first half, of the body and of the
second half and the lanes of the reference kernel, and its combine is the reference value. Neither
the target nor the kernel of the combine matters. -/
theorem frame_tag_eq_reference (body : List UInt8) :
    (∀ x86, (affineFrameTag x86 body).prefixCrc = crcBytes 0#32 (body.take (body.length / 2)) ∧
      (affineFrameTag x86 body).cumCrc = crcBytes 0#32 body ∧
      (affineFrameTag x86 body).rawCrc = crcBytes 0#32 (body.drop (body.length / 2)) ∧
      (affineFrameTag x86 body).lanes = sinkLanes x86 body ∧
      ∀ mode, spanCrc32c8laneFromTags mode (affineFrameTag x86 body).lanes body.length =
        spanCrc32c8lane x86 mode body) ∧
      registers true = registers false ∧
      (∀ x86, affineFrameTag x86 body = affineFrameTag false body) ∧
      ∀ x86 mode, spanCrc32c8lane x86 mode body = spanCrc32c8lane false .portable body := by
  refine ⟨fun x86 => ?_, registers_agree true, fun x86 => affineFrameTag_agree x86 body,
    fun x86 mode => spanCrc32c8lane_agree x86 mode body⟩
  refine ⟨prefixCrc_eq x86 body, cumCrc_eq x86 body, rawCrc_eq x86 body, lanes_eq x86 body,
    fun mode => ?_⟩
  rw [spanCrc32c8laneFromTags, lanes_eq, spanCrc32c8lane]

end HftProj.Testkit.FrameTag
