import HftProj.Lib.Rotation
import HftProj.Protocol.Moldudp64
import Mathlib.Tactic.Linarith

/-!
# The speculative slicer

The slicer walks a block stream window by window: a window of at most 64 bytes starts at the
next header, its headers are read from the bytes or from two tables of candidates, and at most
sixteen blocks are handed out before the next window. `referenceWalk` is the plain walk over
the length prefixes.
-/

namespace HftProj.Protocol.Moldudp64

open HftProj.Lib

/-- One sliced message: the payload's offset in the block stream, and its length. -/
structure SpecMsg where
  off : ℕ
  len : ℕ
  deriving DecidableEq

def SPEC_SLICE_CAP : ℕ := 16

/-- The big-endian length prefix at a position. -/
def lenAt (buf : List UInt8) (p : ℕ) : ℕ := fromBeBytes (slice buf p (p + 2))

/-- Read a length, yield the block, step past it; stop where the prefix or the body does
not fit. -/
@[grind =]
def referenceWalk (buf : List UInt8) (p : ℕ) : List SpecMsg :=
  if p + 2 ≤ buf.length ∧ p + 2 + lenAt buf p ≤ buf.length then
    ⟨p + 2, lenAt buf p⟩ :: referenceWalk buf (p + 2 + lenAt buf p)
  else []
termination_by buf.length - p

/-! ## One window -/

/-- The boundary chain over the lengths of a window of `n` bytes, up to a number of blocks. -/
@[grind =]
def windowWalk (len : ℕ → ℕ) (n limit : ℕ) : ℕ → ℕ → List SpecMsg × ℕ
  | 0, p => ([], p)
  | cap + 1, p =>
      if p + 2 ≤ n then
        let l := len p
        if p + 2 + l > limit then ([], p)
        else
          let rest := windowWalk len n limit cap (p + 2 + l)
          (⟨(p + 2) % 2 ^ 32, l⟩ :: rest.1, rest.2)
      else ([], p)

/-- The walk over the tables of the lengths at even and at odd positions. -/
def specSliceWalk (eTab oTab : List ℕ) (n start limit : ℕ) : List SpecMsg × ℕ :=
  windowWalk (fun p => if p &&& 1 = 0 then eTab.getD (p >>> 1) 0 else oTab.getD (p >>> 1) 0)
    n limit SPEC_SLICE_CAP start

/-- An installed table builder. -/
abbrev SpecTableBuilder := List UInt8 → List ℕ × List ℕ

/-- Slice one window; with a builder the tables are walked, else the bytes. -/
def specSlice512 (builder : Option SpecTableBuilder) (chunk : List UInt8) (start limit : ℕ) :
    List SpecMsg × ℕ :=
  if chunk.length < 2 then ([], start)
  else
    match builder with
    | some build =>
        let tabs := build chunk
        specSliceWalk tabs.1 tabs.2 chunk.length start limit
    | none => windowWalk (lenAt chunk) chunk.length limit SPEC_SLICE_CAP start

/-- The tables of a window: each holds 32 lengths, read from the bytes at their positions and
zeros past the window's end. -/
def TableContract (build : SpecTableBuilder) : Prop :=
  ∀ chunk : List UInt8, chunk.length ≤ 64 →
    let padded := chunk ++ List.replicate (66 - chunk.length) 0
    build chunk = ((List.range 32).map fun j => lenAt padded (2 * j),
      (List.range 32).map fun j => lenAt padded (2 * j + 1))

/-! ## The iterator -/

/-- The current batch holds the `n` valid entries of the source's array. -/
structure SpecSliceIter where
  buf : List UInt8
  pos : ℕ
  batch : List SpecMsg
  i : ℕ
  done : Bool
  deriving DecidableEq

namespace SpecSliceIter

def new (payload : List UInt8) : SpecSliceIter := ⟨payload, 0, [], 0, payload.isEmpty⟩

section Refill

-- The path of the window at each position: a builder may be installed at any time.
variable (dispatch : ℕ → Option SpecTableBuilder)

/-- Fill the next batch; `true` when entries are available. -/
@[grind =]
def refill (it : SpecSliceIter) : Bool × SpecSliceIter :=
  if it.i < it.batch.length then (true, it)
  else if _hopen : it.done ∨ it.pos ≥ it.buf.length then (false, { it with done := true })
  else
    let base := it.pos
    let rem := it.buf.length - base
    let wlen := min rem 64
    let chunk := slice it.buf base (base + wlen)
    let cut := specSlice512 (dispatch base) chunk 0 rem
    let batch := cut.1.map fun m => ⟨(m.off + base % 2 ^ 32) % 2 ^ 32, m.len⟩
    if _hzero : cut.2 = 0 then (false, ⟨it.buf, base + cut.2, [], 0, true⟩)
    else refill ⟨it.buf, base + cut.2, batch, 0, it.done⟩
termination_by it.buf.length - it.pos
decreasing_by
  have hin := Nat.lt_of_not_ge (not_or.mp _hopen).2
  exact Nat.sub_lt_sub_left hin (Nat.lt_add_of_pos_right (Nat.pos_of_ne_zero _hzero))

def next (it : SpecSliceIter) : Option SpecMsg × SpecSliceIter :=
  if it.i ≥ it.batch.length then
    match it.refill dispatch with
    | (false, it) => (none, it)
    | (true, it) => (it.batch[it.i]?, { it with i := it.i + 1 })
  else (it.batch[it.i]?, { it with i := it.i + 1 })

/-- What `k` calls yield. -/
@[grind =]
def collect : ℕ → SpecSliceIter → List SpecMsg
  | 0, _ => []
  | k + 1, it =>
      match it.next dispatch with
      | (none, _) => []
      | (some m, it) => m :: collect k it

end Refill

end SpecSliceIter

/-! ## A window against the plain walk -/

section Window

variable {buf : List UInt8} {base n : ℕ}

theorem referenceWalk_of_fits {p : ℕ} (h₁ : p + 2 ≤ buf.length)
    (h₂ : p + 2 + lenAt buf p ≤ buf.length) :
    referenceWalk buf p = ⟨p + 2, lenAt buf p⟩ :: referenceWalk buf (p + 2 + lenAt buf p) := by
  rw [referenceWalk, if_pos ⟨h₁, h₂⟩]

theorem referenceWalk_of_not {p : ℕ}
    (h : ¬(p + 2 ≤ buf.length ∧ p + 2 + lenAt buf p ≤ buf.length)) : referenceWalk buf p = [] := by
  rw [referenceWalk, if_neg h]

/-- A message of a window, with its offset in the stream. -/
def SpecMsg.shift (base : ℕ) (m : SpecMsg) : SpecMsg := ⟨m.off + base, m.len⟩

/-- What a walk over a window of `n` bytes, from `p` on, does of the plain walk of the stream:
its messages come first, and it ends early only at the window's edge or where the plain walk
does. -/
structure Sliced (buf : List UInt8) (base n cap p : ℕ) (r : List SpecMsg × ℕ) : Prop where
  reference : referenceWalk buf (base + p) =
    r.1.map (SpecMsg.shift base) ++ referenceWalk buf (base + r.2)
  offsets : ∀ m ∈ r.1, m.off ≤ n
  moves : p + 2 * r.1.length ≤ r.2
  stays : r.1 = [] → r.2 = p
  bounded : r.1.length ≤ cap
  complete : r.1.length < cap → r.2 + 2 ≤ n ∨ base + n = buf.length →
    referenceWalk buf (base + r.2) = []

/-- A walk that yields nothing. -/
theorem Sliced.nothing {cap p : ℕ}
    (h : 0 < cap → p + 2 ≤ n ∨ base + n = buf.length → referenceWalk buf (base + p) = []) :
    Sliced buf base n cap p ([], p) :=
  ⟨rfl, nofun, le_rfl, fun _ => rfl, Nat.zero_le _, h⟩

theorem windowWalk_sliced {len : ℕ → ℕ} (hfit : base + n ≤ buf.length)
    (hsmall : buf.length < 2 ^ 32) (hlen : ∀ q, q + 2 ≤ n → len q = lenAt buf (base + q))
    (cap p : ℕ) : Sliced buf base n cap p (windowWalk len n (buf.length - base) cap p) := by
  induction cap generalizing p with
  | zero => exact Sliced.nothing fun h => absurd h (Nat.lt_irrefl 0)
  | succ cap ih =>
      rw [windowWalk]
      split
      · next hp =>
          have hl := hlen p hp
          simp only
          split
          · next hbody =>
              apply Sliced.nothing
              refine fun _ _ => referenceWalk_of_not fun h => ?_
              rw [← hl] at h
              omega
          · next hbody =>
              obtain ⟨href, hoff, hmoves, -, hbound, hcomplete⟩ := ih (p + 2 + len p)
              have hmod : (p + 2) % 2 ^ 32 = p + 2 := Nat.mod_eq_of_lt (by omega)
              have hnext : base + (p + 2 + len p) = base + p + 2 + lenAt buf (base + p) := by
                rw [← hl]
                omega
              refine ⟨?_, ?_, ?_, nofun, Nat.succ_le_succ hbound, ?_⟩
              · have hshift : base + p + 2 = p + 2 + base := by omega
                rw [referenceWalk_of_fits (by omega) (by omega), ← hnext, href, hmod, ← hl, hshift]
                rfl
              · refine List.forall_mem_cons.mpr ⟨?_, hoff⟩
                rw [hmod]
                exact hp
              · rw [List.length_cons]
                omega
              · exact fun h => hcomplete (Nat.lt_of_succ_lt_succ h)
      · next hp =>
          apply Sliced.nothing
          exact fun _ hedge => referenceWalk_of_not fun h => by omega

theorem lenAt_slice {q : ℕ} (hq : q + 2 ≤ n) :
    lenAt (slice buf base (base + n)) q = lenAt buf (base + q) := by
  rw [lenAt, lenAt]
  congr 1
  simp only [slice, List.drop_take, List.drop_drop, List.take_take]
  congr 1
  omega

theorem lenAt_append {chunk rest : List UInt8} {q : ℕ} (hq : q + 2 ≤ chunk.length) :
    lenAt (chunk ++ rest) q = lenAt chunk q := by
  rw [lenAt, lenAt, slice, slice, List.drop_append_of_le_length (by omega),
    List.take_append_of_le_length (by rw [List.length_drop]; omega)]

/-- The tables of the contract hold the lengths of the window. -/
theorem tables_getD {build : SpecTableBuilder} (hbuild : TableContract build) {chunk : List UInt8}
    (hchunk : chunk.length ≤ 64) {q : ℕ} (hq : q + 2 ≤ chunk.length) :
    (if q &&& 1 = 0 then (build chunk).1.getD (q >>> 1) 0
      else (build chunk).2.getD (q >>> 1) 0) = lenAt chunk q := by
  have hhalf : q >>> 1 = q / 2 := Nat.shiftRight_eq_div_pow q 1
  have hlt : q / 2 < 32 := by omega
  rw [hbuild chunk hchunk, Nat.and_one_is_mod, hhalf]
  split
  · next heven =>
      have hq' : 2 * (q / 2) = q := by omega
      simp only [List.getD_eq_getElem?_getD, List.getElem?_map, List.getElem?_range hlt,
        Option.map_some, Option.getD_some, hq']
      exact lenAt_append hq
  · next hodd =>
      have hq' : 2 * (q / 2) + 1 = q := by omega
      simp only [List.getD_eq_getElem?_getD, List.getElem?_map, List.getElem?_range hlt,
        Option.map_some, Option.getD_some, hq']
      exact lenAt_append hq

section Builder

variable {build : SpecTableBuilder}

/-- The walk over tables slices its window. -/
theorem specSliceWalk_sliced (hbuild : TableContract build) (hfit : base + n ≤ buf.length)
    (hn : n ≤ 64) (hsmall : buf.length < 2 ^ 32) (start : ℕ) :
    let tabs := build (slice buf base (base + n))
    Sliced buf base n SPEC_SLICE_CAP start
      (specSliceWalk tabs.1 tabs.2 n start (buf.length - base)) := by
  have hlength : (slice buf base (base + n)).length = n := by
    rw [slice_length hfit, Nat.add_sub_cancel_left]
  refine windowWalk_sliced hfit hsmall (fun q hq => ?_) SPEC_SLICE_CAP start
  rw [tables_getD hbuild (by rw [hlength]; exact hn) (by rw [hlength]; exact hq)]
  exact lenAt_slice hq

/-- Either form of the slicer slices its window. -/
theorem specSlice512_sliced {builder : Option SpecTableBuilder}
    (hbuild : ∀ build ∈ builder, TableContract build) (hfit : base + n ≤ buf.length) (hn : n ≤ 64)
    (hsmall : buf.length < 2 ^ 32) (start : ℕ) :
    Sliced buf base n SPEC_SLICE_CAP start
      (specSlice512 builder (slice buf base (base + n)) start (buf.length - base)) := by
  have hlength : (slice buf base (base + n)).length = n := by
    rw [slice_length hfit, Nat.add_sub_cancel_left]
  simp only [specSlice512, hlength]
  split
  · apply Sliced.nothing
    exact fun _ hedge => referenceWalk_of_not fun h => by omega
  · cases builder with
    | none => exact windowWalk_sliced hfit hsmall (fun q hq => lenAt_slice hq) SPEC_SLICE_CAP start
    | some build => exact specSliceWalk_sliced (hbuild build rfl) hfit hn hsmall start

end Builder

end Window

/-! ## The iterator against the plain walk -/

namespace SpecSliceIter

variable {dispatch : ℕ → Option SpecTableBuilder} {it : SpecSliceIter}

/-- What the iterator has still to yield. -/
def pending (it : SpecSliceIter) : List SpecMsg :=
  it.batch.drop it.i ++ if it.done then [] else referenceWalk it.buf it.pos

theorem pending_new (payload : List UInt8) : (new payload).pending = referenceWalk payload 0 := by
  cases payload with
  | nil => exact (referenceWalk_of_not (by simp)).symm
  | cons b rest => rfl

/-- Refilling leaves what is pending, and fails only when nothing is. -/
theorem refill_spec (hcontract : ∀ base, ∀ build ∈ dispatch base, TableContract build)
    (hsmall : it.buf.length < 2 ^ 32) (hempty : it.batch.length ≤ it.i) :
    (it.refill dispatch).2.buf = it.buf ∧ (it.refill dispatch).2.pending = it.pending ∧
      ((it.refill dispatch).1 = true →
        (it.refill dispatch).2.i < (it.refill dispatch).2.batch.length) ∧
      ((it.refill dispatch).1 = false → it.pending = []) := by
  have hdrop : it.batch.drop it.i = [] := List.drop_eq_nil_of_le hempty
  rw [refill, if_neg (Nat.not_lt.mpr hempty)]
  split
  · next hend =>
      have hnone : it.pending = [] := by
        rw [pending, hdrop, List.nil_append]
        split
        · rfl
        · next hopen =>
            have hpos := hend.resolve_left hopen
            exact referenceWalk_of_not fun h => by omega
      refine ⟨rfl, ?_, nofun, fun _ => hnone⟩
      rw [hnone, pending, if_pos rfl, hdrop]
      rfl
  · next hopen =>
      obtain ⟨hlive, hpos⟩ := not_or.mp hopen
      have hfit : it.pos + min (it.buf.length - it.pos) 64 ≤ it.buf.length := by omega
      obtain ⟨href, hoff, hmoves, hstays, -, hcomplete⟩ := specSlice512_sliced
        (hcontract it.pos) hfit (Nat.min_le_right _ _) hsmall 0
      rw [Nat.add_zero] at href
      have hpending : it.pending = referenceWalk it.buf it.pos := by
        rw [pending, hdrop, if_neg hlive, List.nil_append]
      simp only
      split
      · next hzero =>
          have hnone : it.pending = [] := by
            rw [hzero] at hmoves hcomplete
            rw [hpending]
            exact hcomplete (show _ < 16 by omega) (by omega)
          refine ⟨rfl, ?_, nofun, fun _ => hnone⟩
          rw [hnone]
          rfl
      · next hmoved =>
          generalize hcut : specSlice512 (dispatch it.pos) (slice it.buf it.pos
            (it.pos + min (it.buf.length - it.pos) 64)) 0 (it.buf.length - it.pos) = cut at *
          have hbatch : (cut.1.map fun m =>
                (⟨(m.off + it.pos % 2 ^ 32) % 2 ^ 32, m.len⟩ : SpecMsg)) =
              cut.1.map (SpecMsg.shift it.pos) := by
            apply List.map_congr_left
            intro m hm
            have hm' := hoff m hm
            rw [SpecMsg.shift, Nat.mod_eq_of_lt (by omega : it.pos < 2 ^ 32),
              Nat.mod_eq_of_lt (by omega)]
          have hne : cut.1 ≠ [] := fun h => hmoved (hstays h)
          have hlen : 0 < (cut.1.map (SpecMsg.shift it.pos)).length := by
            rw [List.length_map]
            exact List.length_pos_iff.mpr hne
          rw [hbatch, refill, if_pos hlen]
          refine ⟨rfl, ?_, fun _ => hlen, nofun⟩
          rw [hpending, href, pending, if_neg hlive]
          rfl

/-- A call yields the first pending message. -/
theorem next_spec (hcontract : ∀ base, ∀ build ∈ dispatch base, TableContract build)
    (hsmall : it.buf.length < 2 ^ 32) :
    (it.next dispatch).1 = it.pending.head? ∧ (it.next dispatch).2.pending = it.pending.tail ∧
      (it.next dispatch).2.buf = it.buf := by
  have htake : ∀ jt : SpecSliceIter, jt.i < jt.batch.length →
      jt.batch[jt.i]? = jt.pending.head? ∧
        ({ jt with i := jt.i + 1 } : SpecSliceIter).pending = jt.pending.tail := by
    intro jt hi
    rw [pending, pending, List.drop_eq_getElem_cons hi, List.getElem?_eq_getElem hi]
    exact ⟨rfl, rfl⟩
  rw [next]
  split
  · next hempty =>
      obtain ⟨hbuf, hsame, hmore, hnone⟩ := refill_spec hcontract hsmall hempty
      rcases hr : it.refill dispatch with ⟨ok, jt⟩
      rw [hr] at hbuf hsame hmore hnone
      cases ok with
      | false =>
          rw [hnone rfl] at hsame ⊢
          exact ⟨rfl, hsame, hbuf⟩
      | true =>
          obtain ⟨hhead, htail⟩ := htake jt (hmore rfl)
          rw [hsame] at hhead htail
          exact ⟨hhead, htail, hbuf⟩
  · next hfull =>
      obtain ⟨hhead, htail⟩ := htake it (Nat.lt_of_not_ge hfull)
      exact ⟨hhead, htail, rfl⟩

theorem collect_eq_take (hcontract : ∀ base, ∀ build ∈ dispatch base, TableContract build)
    (k : ℕ) (hsmall : it.buf.length < 2 ^ 32) : it.collect dispatch k = it.pending.take k := by
  induction k generalizing it with
  | zero => rfl
  | succ k ih =>
      obtain ⟨hhead, htail, hbuf⟩ := next_spec hcontract hsmall
      rw [collect]
      rcases hn : it.next dispatch with ⟨_ | m, jt⟩
      · rw [hn] at hhead
        rw [List.head?_eq_none_iff.mp hhead.symm]
        rfl
      · rw [hn] at hhead htail hbuf
        have hcons := List.eq_cons_of_mem_head? hhead.symm
        simp only
        rw [ih (by rw [hbuf]; exact hsmall), htail]
        conv_rhs => rw [hcons]
        rfl

end SpecSliceIter

/-- The tables that the contract asks for. -/
def specTables : SpecTableBuilder := fun chunk =>
  let padded := chunk ++ List.replicate (66 - chunk.length) 0
  ((List.range 32).map fun j => lenAt padded (2 * j),
    (List.range 32).map fun j => lenAt padded (2 * j + 1))

/-- The iterator yields the plain walk and nothing else, whichever form slices each window, and
each form yields of a window what the plain walk does there. -/
theorem spec_slicer_equals_reference (dispatch : ℕ → Option SpecTableBuilder)
    (hcontract : ∀ base, ∀ build ∈ dispatch base, TableContract build) (buf : List UInt8)
    (hsmall : buf.length < 2 ^ 32) :
    (∀ k, (SpecSliceIter.new buf).collect dispatch k = (referenceWalk buf 0).take k) ∧
      ∀ base n start, base + n ≤ buf.length → n ≤ 64 →
        let chunk := slice buf base (base + n)
        let limit := buf.length - base
        (∀ builder : Option SpecTableBuilder, (∀ build ∈ builder, TableContract build) →
          Sliced buf base n SPEC_SLICE_CAP start (specSlice512 builder chunk start limit)) ∧
        ∀ build, TableContract build → Sliced buf base n SPEC_SLICE_CAP start
          (specSliceWalk (build chunk).1 (build chunk).2 n start limit) := by
  constructor
  · intro k
    rw [SpecSliceIter.collect_eq_take hcontract k hsmall, SpecSliceIter.pending_new]
  · intro base n start hfit hn
    constructor
    · exact fun builder hbuild => specSlice512_sliced hbuild hfit hn hsmall start
    · exact fun build hbuild => specSliceWalk_sliced hbuild hfit hn hsmall start

/-- A stream of two empty messages and one that is cut off, sliced with tables. -/
theorem spec_slicer_equals_reference_cut :
    (SpecSliceIter.new [0, 0, 0, 0, 0, 9, 1]).collect (fun _ => some specTables) 3 =
      [⟨2, 0⟩, ⟨4, 0⟩] := by
  have hcontract : ∀ _base : ℕ, ∀ build ∈ some specTables, TableContract build := by
    intro _ build hbuild
    cases hbuild
    exact fun _ _ => rfl
  rw [(spec_slicer_equals_reference (fun _ => some specTables) hcontract [0, 0, 0, 0, 0, 9, 1]
    (by decide)).1 3]
  have h₀ : lenAt [0, 0, 0, 0, 0, 9, 1] 0 = 0 := by decide
  have h₂ : lenAt [0, 0, 0, 0, 0, 9, 1] 2 = 0 := by decide
  rw [referenceWalk_of_fits (by decide) (by decide), h₀,
    referenceWalk_of_fits (by decide) (by decide), h₂, referenceWalk_of_not (by decide)]
  rfl

/-! ## The fused fold -/

def INGEST_BATCH : ℕ := 16

/-- The lengths of one batch, the position behind it, and whether a message that does not fit
ended it. -/
@[grind =]
def ingestBatch (payload : List UInt8) : ℕ → ℕ → List ℕ × ℕ × Bool
  | room, p =>
      if p + 2 ≤ payload.length then
        let next := p + 2 + lenAt payload p
        if next > payload.length then ([], p, true)
        else
          match room with
          | 0 => ([], p, false)
          | room + 1 =>
              let rest := ingestBatch payload room next
              (lenAt payload p :: rest.1, rest.2)
      else ([], p, false)

/-- One rotation of the accumulator, and one independent rotation for each length. -/
def batchFold (acc : BitVec 64) (lens : List ℕ) : BitVec 64 :=
  lens.zipIdx.foldl
    (fun a p => a ^^^ (BitVec.ofNat 64 p.1).rotateLeft ((7 * (lens.length - 1 - p.2)) &&& 63))
    (acc.rotateLeft ((7 * lens.length) &&& 63))

section Ingest

variable {payload : List UInt8}

theorem ingestBatch_ge (room p : ℕ) : p ≤ (ingestBatch payload room p).2.1 := by
  induction room generalizing p with
  | zero =>
      rw [ingestBatch]
      split
      · simp only
        split <;> exact le_rfl
      · exact le_rfl
  | succ room ih =>
      rw [ingestBatch]
      split
      · simp only
        split
        · exact le_rfl
        · exact Nat.le_trans (by omega) (ih (p + 2 + lenAt payload p))
      · exact le_rfl

/-- A batch that no cut-off message ended has moved. -/
theorem ingestBatch_progress {room p : ℕ} (hp : p + 2 ≤ payload.length)
    (h : ¬(ingestBatch payload (room + 1) p).2.2 = true) :
    p < (ingestBatch payload (room + 1) p).2.1 := by
  rw [ingestBatch, if_pos hp] at h ⊢
  simp only at h ⊢
  split at h
  · exact absurd rfl h
  · next hfits =>
      have hge := @ingestBatch_ge payload room (p + 2 + lenAt payload p)
      rw [if_neg hfits]
      simp only
      omega

end Ingest

/-- The outer loop, with the count and the accumulator. -/
@[grind =]
def ingestLoop (payload : List UInt8) (pos count : ℕ) (acc : BitVec 64) : ℕ × BitVec 64 :=
  if _hpos : pos + 2 ≤ payload.length then
    let batch := ingestBatch payload INGEST_BATCH pos
    if _hcut : batch.2.2 = true then (count + batch.1.length, batchFold acc batch.1)
    else ingestLoop payload batch.2.1 (count + batch.1.length) (batchFold acc batch.1)
  else (count, acc)
termination_by payload.length - pos
decreasing_by
  have hlt := ingestBatch_progress _hpos _hcut
  exact Nat.sub_lt_sub_left (by omega) hlt

/-- The count of messages, and the sink with their lengths folded in. -/
def specSliceIngest (payload : List UInt8) (sink : BitVec 64) : ℕ × BitVec 64 :=
  if payload.length < 2 then (0, sink) else ingestLoop payload 0 0 sink

/-- The sequential update of the accumulator. -/
def sinkStep (acc : BitVec 64) (len : ℕ) : BitVec 64 := acc.rotateLeft 7 ^^^ BitVec.ofNat 64 len

/-- The independent rotations of a batch make its sequential updates. -/
theorem batchFold_eq (acc : BitVec 64) (lens : List ℕ) :
    batchFold acc lens = lens.foldl sinkStep acc := by
  have hmask (n : ℕ) : n &&& 63 = n % 64 := Nat.and_two_pow_sub_one_eq_mod n 6
  have hchain := foldl_rotate_xor 7 acc (lens.map (BitVec.ofNat 64))
  rw [List.foldl_map, List.length_map, rotComposite, List.zipIdx_map, List.foldl_map,
    ← foldl_xor_start, List.length_map] at hchain
  simp only [batchFold, hmask, rotateLeft_mod]
  exact hchain.symm

section Ingest

variable {payload : List UInt8}

/-- A batch takes its lengths off the plain walk; a message that does not fit ends both. -/
theorem ingestBatch_reference (room p : ℕ) :
    let batch := ingestBatch payload room p
    (referenceWalk payload p).map SpecMsg.len =
        batch.1 ++ (referenceWalk payload batch.2.1).map SpecMsg.len ∧
      (batch.2.2 = true → referenceWalk payload batch.2.1 = []) := by
  induction room generalizing p with
  | zero =>
      rw [ingestBatch]
      split
      · simp only
        split
        · next hover => exact ⟨rfl, fun _ => referenceWalk_of_not fun h => Nat.not_le.mpr hover h.2⟩
        · exact ⟨rfl, nofun⟩
      · exact ⟨rfl, nofun⟩
  | succ room ih =>
      rw [ingestBatch]
      split
      · next hp =>
          simp only
          split
          · next hover =>
              exact ⟨rfl, fun _ => referenceWalk_of_not fun h => Nat.not_le.mpr hover h.2⟩
          · next hfits =>
              obtain ⟨href, hcut⟩ := ih (p + 2 + lenAt payload p)
              rw [referenceWalk_of_fits hp (Nat.le_of_not_gt hfits), List.map_cons, href]
              exact ⟨rfl, hcut⟩
      · exact ⟨rfl, nofun⟩

theorem ingestLoop_eq (pos count : ℕ) (acc : BitVec 64) :
    ingestLoop payload pos count acc =
      (count + (referenceWalk payload pos).length,
        ((referenceWalk payload pos).map SpecMsg.len).foldl sinkStep acc) := by
  induction pos, count, acc using ingestLoop.induct payload with
  | case1 pos count acc hpos batch hcut =>
      obtain ⟨href, hend⟩ := @ingestBatch_reference payload INGEST_BATCH pos
      have hlens : (referenceWalk payload pos).map SpecMsg.len = batch.1 := by
        rw [href, hend hcut, List.map_nil, List.append_nil]
      have hcount : (referenceWalk payload pos).length = batch.1.length := by
        rw [← hlens, List.length_map]
      rw [ingestLoop, dif_pos hpos, hlens, hcount, ← batchFold_eq acc]
      exact dif_pos hcut
  | case2 pos count acc hpos batch hcut ih =>
      obtain ⟨href, -⟩ := @ingestBatch_reference payload INGEST_BATCH pos
      have hcount : (referenceWalk payload pos).length =
          batch.1.length + (referenceWalk payload batch.2.1).length := by
        rw [← List.length_map SpecMsg.len, href, List.length_append, List.length_map]
      rw [ingestLoop, dif_pos hpos, href, List.foldl_append, ← batchFold_eq acc, hcount, ← Nat.add_assoc]
      exact (dif_neg hcut).trans ih
  | case3 pos count acc hpos =>
      have hnone : referenceWalk payload pos = [] := referenceWalk_of_not fun h => hpos h.1
      rw [ingestLoop, dif_neg hpos, hnone]
      rfl

/-- The fused slice-and-fold counts the blocks of the plain walk and folds their lengths. -/
theorem spec_slice_ingest_eq (payload : List UInt8) (sink : BitVec 64) :
    specSliceIngest payload sink =
      ((referenceWalk payload 0).length,
        (referenceWalk payload 0).foldl (fun acc m => acc.rotateLeft 7 ^^^ BitVec.ofNat 64 m.len)
          sink) := by
  rw [specSliceIngest]
  split
  · next hshort =>
      have hnone : referenceWalk payload 0 = [] := referenceWalk_of_not fun h => by omega
      rw [hnone]
      rfl
  · rw [ingestLoop_eq, Nat.zero_add, List.foldl_map]
    rfl

end Ingest

end HftProj.Protocol.Moldudp64
