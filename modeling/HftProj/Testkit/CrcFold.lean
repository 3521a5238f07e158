import HftProj.Lib.Horner
import HftProj.Testkit.FrameTag
import HftProj.Testkit.SpanLanes

/-!
# The fold kernels

The second implementation of the span checksum. Each lane's stream is taken 16 bytes at a time
into a state of two mirrored words, which carry-less products lift over the next unit; an ending
of three checksum instructions brings a state back to the register. The kernels differ in the
streams that they keep apart: one for each lane, two spans side by side, or three for each lane.
Targets without the wide registers have the reference kernel in their place.
-/

namespace HftProj.Testkit.CrcFold

open HftProj.Lib
open SpanField SpanHash CrcRegister FrameTag

/-! ## Constants -/

def kp192 : BitVec 64 := 0x6503ea99#64

def kp128 : BitVec 64 := 0x18571d18#64

def kp448 : BitVec 64 := 0xaa5eec4a#64

def kp384 : BitVec 64 := 0xe6957b4d#64

def kp320 : BitVec 64 := 0x7bba6798#64

def kp256 : BitVec 64 := 0x59a3508a#64

def foldMinLen : ℕ := 192

def bitrevMat : BitVec 64 := 0x8040201008040201#64

/-- `BSWAP_QW`. -/
def bswapQw : List UInt8 :=
  (List.replicate 4 [7, 6, 5, 4, 3, 2, 1, 0, 15, 14, 13, 12, 11, 10, 9, 8]).flatten

/-! ## The instructions -/

/-- The word of the given bits. -/
@[grind =]
def fromBits (f : ℕ → Bool) : (n : ℕ) → BitVec n
  | 0 => 0#0
  | n + 1 => (fromBits f n).cons (f n)

/-- `_mm512_loadu_si512`. -/
def loadu512 (bytes : List UInt8) (o : ℕ) : Zmm := fun i => qword bytes (o + 8 * i.val)

/-- `_mm512_set1_epi64`. -/
def set1 (w : BitVec 64) : Zmm := fun _ => w

/-- The affine transform of every byte of a word: bit `i` is the parity of the byte under row
`7 - i` of the matrix, flipped by the immediate. -/
def affineWord (x A : BitVec 64) (imm : BitVec 8) : BitVec 64 :=
  fromBits (fun p =>
    (List.range 8).foldl (fun r t =>
      r ^^ (A.getLsbD (8 * (7 - p % 8) + t) && x.getLsbD (8 * (p / 8) + t)))
      (imm.getLsbD (p % 8))) 64

/-- `_mm512_gf2p8affine_epi64_epi8`. -/
def gf2p8affine (x A : Zmm) (imm : BitVec 8) : Zmm := fun i => affineWord (x i) (A i) imm

/-- `_mm512_shuffle_epi8`: a byte of the mask selects a byte of its 128-bit lane, or zero. -/
def shuffleEpi8 (a mask : Zmm) : Zmm := fun i =>
  let lo := a (Zmm.half false i)
  let hi := a (Zmm.half true i)
  let ms := mask i
  fromBits (fun p =>
    let m := leByte ms (p / 8)
    let s := (m &&& 15#8).toNat
    !m.getLsbD 7 && (if s < 8 then lo else hi).getLsbD (8 * (s % 8) + p % 8)) 64

/-- `_mm512_unpacklo_epi64` and `_mm512_unpackhi_epi64`. -/
def unpack (high : Bool) (a b : Zmm) : Zmm := fun i =>
  if i.val % 2 = 0 then a (Zmm.half high i) else b (Zmm.half high i)

/-! ## The fold -/

/-- The states of a span's lanes: the even lanes and the odd ones. -/
structure FoldStates where
  even : Zmm
  odd : Zmm
  units : ℕ

def FoldStates.zero : FoldStates := ⟨set1 0#64, set1 0#64, 0⟩

def rev64Qwords (x : Zmm) : Zmm :=
  shuffleEpi8 (gf2p8affine x (set1 bitrevMat) 0#8) (loadu512 bswapQw 0)

def prepBlock (body : List UInt8) (o : ℕ) : Zmm :=
  gf2p8affine (loadu512 body o) (set1 bitrevMat) 0#8

def unitsPair (n0 n1 : Zmm) : Zmm × Zmm :=
  (shuffleEpi8 (unpack false n1 n0) (loadu512 bswapQw 0),
    shuffleEpi8 (unpack true n1 n0) (loadu512 bswapQw 0))

/-- The units of a block pair. -/
def pairUnits (body : List UInt8) (j : ℕ) : Zmm × Zmm :=
  unitsPair (prepBlock body (128 * j)) (prepBlock body (128 * j + 64))

/-- The state lifted by the two constants. -/
def lift (v : Zmm) (kHi kLo : BitVec 64) : Zmm :=
  Zmm.xor (Zmm.clmulepi64 true v (set1 kHi)) (Zmm.clmulepi64 false v (set1 kLo))

/-- The step of both folds: the states lifted over a unit, and the unit. -/
def stepBy (kHi kLo : BitVec 64) (st : FoldStates) (u : Zmm × Zmm) : FoldStates where
  even := Zmm.xor (lift st.even kHi kLo) u.1
  odd := Zmm.xor (lift st.odd kHi kLo) u.2
  units := st.units + 1

def foldStep : FoldStates → Zmm × Zmm → FoldStates := stepBy kp192 kp128

def foldStep3 : FoldStates → Zmm × Zmm → FoldStates := stepBy kp448 kp384

/-- The states that a unit seeds. -/
def seed (u : Zmm × Zmm) : FoldStates := ⟨u.1, u.2, 1⟩

def foldWordPairs (body : List UInt8) (wp : ℕ) : FoldStates :=
  if wp = 0 then .zero
  else
    (List.range' 1 (wp - 1)).foldl (fun st j => foldStep st (pairUnits body j))
      (seed (pairUnits body 0))

/-- One pair into a stream. -/
def feed (body : List UInt8) (st : ℕ → FoldStates) (m q : ℕ) : ℕ → FoldStates :=
  Function.update st m (foldStep3 (st m) (pairUnits body q))

def mergeStream (acc v : Zmm) (kHi kLo : BitVec 64) : Zmm := Zmm.xor acc (lift v kHi kLo)

/-- The three streams of a span: the seeds, the unrolled rounds, and the last pairs. -/
def tripleStreams (body : List UInt8) (wp : ℕ) : ℕ → FoldStates :=
  let st : ℕ → FoldStates := fun m => if m < wp then seed (pairUnits body m) else .zero
  let p := strides (show 0 < 3 by decide)
    (fun st q => feed body (feed body (feed body st 0 q) 1 (q + 1)) 2 (q + 2)) wp 3 st
  (strides (show 0 < 1 by decide) (fun st q => feed body st (q % 3) q) wp p.1 p.2).2

/-- The streams at the far, the middle and the base offset. -/
def roles (wp : ℕ) : ℕ × ℕ × ℕ :=
  if wp % 3 = 0 then (0, 1, 2) else if wp % 3 = 1 then (1, 2, 0) else (2, 0, 1)

def foldWordTriples (body : List UInt8) (wp : ℕ) : FoldStates :=
  if wp = 0 then .zero
  else
    let st := tripleStreams body wp
    let (far, mid, base) := roles wp
    { even := mergeStream (mergeStream (st base).even (st far).even kp320 kp256) (st mid).even
        kp192 kp128
      odd := mergeStream (mergeStream (st base).odd (st far).odd kp320 kp256) (st mid).odd
        kp192 kp128
      units := (st 0).units + (st 1).units + (st 2).units }

/-! ## The ending -/

/-- `crc_u64` of this module. -/
def crcU64 (c : BitVec 32) (v : BitVec 64) : BitVec 32 := crc32cU64 true c v

/-- `chain_bytes`. -/
def chainBytes (c : BitVec 32) (body : List UInt8) (start stop : ℕ) : BitVec 32 :=
  (chain (registers true) body stop start c).2

/-- The state of lane 0 behind the vector loop; the first unit seeds it if none has been folded. -/
structure Lane0 where
  hi : BitVec 64
  lo : BitVec 64
  first : Bool

def foldStepU128 (vHi vLo uHi uLo : BitVec 64) : BitVec 64 × BitVec 64 :=
  let v := loadu vLo vHi
  let k192 := loadu kp192 0#64
  let k128 := loadu kp128 0#64
  let t := mmClmulepi64 v k192 0x01#8 ^^^ mmClmulepi64 v k128 0x00#8
  let r := t ^^^ loadu uLo uHi
  (high64 r, low64 r)

def mirrorUnit (a b : BitVec 64) : BitVec 64 × BitVec 64 := (a.reverse, b.reverse)

def foldExtra (v : Lane0) (a b : BitVec 64) : Lane0 :=
  let u := mirrorUnit a b
  if v.first then ⟨u.1, u.2, false⟩
  else
    let r := foldStepU128 v.hi v.lo u.1 u.2
    ⟨r.1, r.2, false⟩

/-- The contiguous units from an offset on. -/
def foldTail (body : List UInt8) (o n : ℕ) (v : Lane0) : Lane0 :=
  (List.range n).foldl
    (fun v j => foldExtra v (qword body (o + 16 * j)) (qword body (o + 16 * j + 8))) v

/-- Lane 0 goes on behind the word pairs: an unpaired word with the first of the tail, and the
units of the tail. -/
def lane0Extras (body : List UInt8) (v : Lane0) : Lane0 :=
  let blocks := body.length / 64
  let tail := body.length % 64
  if blocks % 2 = 1 then
    if 8 ≤ tail then
      foldTail body (64 * blocks + 8) ((tail - 8) / 16)
        (foldExtra v (qword body (64 * (blocks - 1))) (qword body (64 * blocks)))
    else v
  else foldTail body (64 * blocks) (tail / 16) v

/-- The register of lane 0. -/
def lane0Ending (body : List UInt8) (v : Lane0) : BitVec 32 :=
  let blocks := body.length / 64
  let tail := body.length % 64
  let r0 := (8 * blocks + tail) % 16
  let c := if 0 < (8 * blocks + tail) / 16 then crcU64 (crcU64 0#32 v.hi.reverse) v.lo.reverse
    else 0#32
  if 0 < r0 then
    if r0 ≤ tail then chainBytes c body (64 * blocks + tail - r0) (64 * blocks + tail)
    else
      chainBytes (crcU64 c (qword body (64 * (blocks - 1)))) body (64 * blocks)
        (64 * blocks + tail)
  else c

/-- The register of another lane. -/
def laneEnding (body : List UInt8) (st : FoldStates) (k : Fin 8) : BitVec 32 :=
  let r := rev64Qwords (if k.val % 2 = 0 then st.even else st.odd)
  let c := crcU64 (crcU64 0#32 (r (Zmm.half true k))) (r (Zmm.half false k))
  if body.length / 64 % 2 = 1 then
    crcU64 c (qword body (64 * (body.length / 64 - 1) + 8 * k.val))
  else c

def finishSpan (mode : Mode) (body : List UInt8) (st : FoldStates) : BitVec 64 :=
  let wp := body.length / 64 / 2
  let v : Lane0 :=
    if wp = 0 then ⟨0#64, 0#64, true⟩
    else ⟨st.even (Zmm.half true 0), st.even (Zmm.half false 0), false⟩
  let lanes : Fin 8 → BitVec 32 := fun k =>
    if k = 0 then lane0Ending body (lane0Extras body v) else laneEnding body st k
  spanLaneCombine mode lanes body.length

/-! ## The kernels -/

def spanFoldEval (mode : Mode) (body : List UInt8) : BitVec 64 :=
  if body.length < foldMinLen then spanCrc32c8lane true mode body
  else finishSpan mode body (foldWordPairs body (body.length / 64 / 2))

/-- The two spans advance in one loop as far as both go, then each by itself. -/
def spanFoldEval2 (mode : Mode) (a b : List UInt8) : BitVec 64 × BitVec 64 :=
  if a.length < foldMinLen then
    let va := spanCrc32c8lane true mode a
    let vb := spanFoldEval mode b
    (va, vb)
  else if b.length < foldMinLen then
    let vb := spanCrc32c8lane true mode b
    let va := spanFoldEval mode a
    (va, vb)
  else
    let wpa := a.length / 64 / 2
    let wpb := b.length / 64 / 2
    let common := min wpa wpb
    let both := (List.range' 1 (common - 1)).foldl
      (fun st j => (foldStep st.1 (pairUnits a j), foldStep st.2 (pairUnits b j)))
      (seed (pairUnits a 0), seed (pairUnits b 0))
    let sta := (List.range' common (wpa - common)).foldl
      (fun st j => foldStep st (pairUnits a j)) both.1
    let stb := (List.range' common (wpb - common)).foldl
      (fun st j => foldStep st (pairUnits b j)) both.2
    (finishSpan mode a sta, finishSpan mode b stb)

def spanFoldEvalPair (mode : Mode) (a b : List UInt8) : BitVec 64 × BitVec 64 :=
  if a.length < foldMinLen then
    let va := spanCrc32c8lane true mode a
    let vb := spanFoldEval mode b
    (va, vb)
  else if b.length < foldMinLen then
    let vb := spanCrc32c8lane true mode b
    let va := spanFoldEval mode a
    (va, vb)
  else
    let sta := foldWordPairs a (a.length / 64 / 2)
    let stb := foldWordPairs b (b.length / 64 / 2)
    (finishSpan mode a sta, finishSpan mode b stb)

def spanFoldEvalTri (mode : Mode) (body : List UInt8) : BitVec 64 :=
  if body.length < foldMinLen then spanCrc32c8lane true mode body
  else finishSpan mode body (foldWordTriples body (body.length / 64 / 2))

end HftProj.Testkit.CrcFold
