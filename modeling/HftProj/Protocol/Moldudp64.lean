import HftProj.Lib.Word

/-!
# MoldUDP64 framing

A frame is a 20-byte header followed by `count` blocks, each a two-byte length
and its payload. Counts 0 and 0xFFFF announce a heartbeat and the end of the
session. `splitBlocks` is the grammar of the block area; the parser, its iterator
and the ingest walk are all compared with it.
-/

namespace HftProj.Protocol.Moldudp64

open HftProj.Lib

def HEADER_LEN : ℕ := 20
def HEARTBEAT_COUNT : ℕ := 0
def EOS_COUNT : ℕ := 0xFFFF

/-- Ten raw bytes; their charset is not checked. -/
abbrev SessionId := { bytes : List UInt8 // bytes.length = 10 }

/-- The id of ten equal bytes. -/
def SessionId.repeated (b : UInt8) : SessionId := ⟨List.replicate 10 b, List.length_replicate⟩

structure Header where
  session : SessionId
  seq : ℕ
  count : ℕ
  deriving DecidableEq

/-- Inclusive message span of a data packet; `none` for heartbeat and end of session
and when the last sequence number does not fit 64 bits. -/
def Header.span (h : Header) : Option (ℕ × ℕ) :=
  if h.count = HEARTBEAT_COUNT ∨ h.count = EOS_COUNT then none
  else (checkedAdd h.seq (h.count - 1)).map fun last => (h.seq, last)

inductive FrameError where
  | truncated (need got : ℕ)
  | trailingBytes (extra : ℕ)
  | blockOverrun
  | zeroLengthMessage
  | seqOverflow
  deriving DecidableEq

structure MessageBlock where
  seq : ℕ
  data : List UInt8
  deriving DecidableEq

/-- The block iterator, made only from a parsed packet. -/
structure MessageBlocks where
  buf : List UInt8
  pos : ℕ
  nextSeq : ℕ
  remaining : ℕ
  deriving DecidableEq

def MessageBlocks.next (it : MessageBlocks) : Option (MessageBlock × MessageBlocks) :=
  if it.remaining = 0 then none
  else
    let len := fromBeBytes (slice it.buf it.pos (it.pos + 2))
    let start := it.pos + 2
    let stop := start + len
    some (⟨it.nextSeq, slice it.buf start stop⟩,
      ⟨it.buf, stop, wrappingAdd it.nextSeq 1, it.remaining - 1⟩)

/-- The blocks an iterator yields until it is exhausted. -/
def MessageBlocks.collect : ℕ → MessageBlocks → List MessageBlock
  | 0, _ => []
  | n + 1, it =>
      match it.next with
      | none => []
      | some (block, it') => block :: MessageBlocks.collect n it'

inductive Parsed where
  | data (header : Header) (blocks : MessageBlocks)
  | heartbeat (header : Header)
  | endOfSession (header : Header)
  deriving DecidableEq

def parseHeader (buf : List UInt8) : Except FrameError Header :=
  if h : buf.length < HEADER_LEN then .error (.truncated HEADER_LEN buf.length)
  else .ok
    { session := ⟨buf.take 10, by rw [List.length_take]; unfold HEADER_LEN at h; omega⟩
      seq := fromBeBytes (slice buf 10 18)
      count := fromBeBytes (slice buf 18 20) }

/-- A condition on the header of a frame, if it has one, can be checked. -/
instance decidableForallHeader (buf : List UInt8) (p : Header → Prop) [DecidablePred p] :
    Decidable (∀ hdr, parseHeader buf = .ok hdr → p hdr) :=
  match h : parseHeader buf with
  | .ok hdr => decidable_of_iff (p hdr) (by simp)
  | .error _ => isTrue (by simp)

/-- The bounds walk of `parse` over the block area; returns what is left. -/
@[grind =]
def skipBlocks : ℕ → List UInt8 → Except FrameError (List UInt8)
  | 0, rest => .ok rest
  | n + 1, rest =>
      if rest.length < 2 then .error .blockOverrun
      else
        let len := fromBeBytes (rest.take 2)
        if rest.length < 2 + len then .error .blockOverrun
        else skipBlocks n (rest.drop (2 + len))

def parse (buf : List UInt8) : Except FrameError Parsed :=
  match parseHeader buf with
  | .error e => .error e
  | .ok hdr =>
      if hdr.count ≠ HEARTBEAT_COUNT ∧ hdr.count ≠ EOS_COUNT ∧
          checkedAdd hdr.seq (hdr.count - 1) = none then
        .error .seqOverflow
      else if hdr.count = HEARTBEAT_COUNT then
        if buf.length ≠ HEADER_LEN then .error (.trailingBytes (buf.length - HEADER_LEN))
        else .ok (.heartbeat hdr)
      else if hdr.count = EOS_COUNT then
        if buf.length ≠ HEADER_LEN then .error (.trailingBytes (buf.length - HEADER_LEN))
        else .ok (.endOfSession hdr)
      else
        match skipBlocks hdr.count (buf.drop HEADER_LEN) with
        | .error e => .error e
        | .ok rest =>
            if rest ≠ [] then .error (.trailingBytes rest.length)
            else .ok (.data hdr ⟨buf.drop HEADER_LEN, 0, hdr.seq, hdr.count⟩)

/-- The payloads of the complete blocks at the front of a block area, up to `count`,
and the framing error that stops the walk, if any. -/
@[grind =]
def splitBlocks : ℕ → List UInt8 → List (List UInt8) × Option FrameError
  | 0, rest => ([], if rest = [] then none else some (.trailingBytes rest.length))
  | n + 1, rest =>
      if rest.length < 2 then ([], some .blockOverrun)
      else
        let len := fromBeBytes (rest.take 2)
        if rest.length < 2 + len then ([], some .blockOverrun)
        else
          let tail := splitBlocks n (rest.drop (2 + len))
          (slice rest 2 (2 + len) :: tail.1, tail.2)

theorem parseHeader_ok {buf : List UInt8} {hdr : Header} (h : parseHeader buf = .ok hdr) :
    HEADER_LEN ≤ buf.length ∧ hdr.session.1 = buf.take 10 ∧
      hdr.seq = fromBeBytes (slice buf 10 18) ∧ hdr.count = fromBeBytes (slice buf 18 20) := by
  unfold parseHeader at h
  split at h
  · cases h
  · cases h
    exact ⟨by omega, rfl, rfl, rfl⟩

theorem parseHeader_bounds {buf : List UInt8} {hdr : Header} (h : parseHeader buf = .ok hdr) :
    hdr.seq < 2 ^ 64 ∧ hdr.count < 2 ^ 16 := by
  obtain ⟨hlen, _, hseq, hcount⟩ := parseHeader_ok h
  unfold HEADER_LEN at hlen
  have h₁ := fromBeBytes_lt (slice buf 10 18)
  have h₂ := fromBeBytes_lt (slice buf 18 20)
  rw [slice_length (by omega)] at h₁ h₂
  exact ⟨by rw [hseq]; exact h₁, by rw [hcount]; exact h₂⟩

theorem Header.span_eq_some {h : Header} {first last : ℕ} (hs : h.span = some (first, last)) :
    first = h.seq ∧ last = h.seq + (h.count - 1) ∧ last < 2 ^ 64 ∧
      0 < h.count ∧ h.count ≠ EOS_COUNT := by
  unfold Header.span at hs
  split at hs
  · cases hs
  · rename_i hkind
    unfold checkedAdd at hs
    split at hs
    · rename_i hlt
      simp only [Option.map_some, Option.some.injEq, Prod.mk.injEq] at hs
      refine ⟨hs.1.symm, hs.2.symm, hs.2 ▸ hlt, ?_, fun he => hkind (Or.inr he)⟩
      rcases Nat.eq_zero_or_pos h.count with hz | hpos
      · exact absurd (Or.inl hz) hkind
      · exact hpos
    · simp at hs

/-- A walk without error found all the blocks it was told to. -/
theorem splitBlocks_length {n : ℕ} {rest : List UInt8} (h : (splitBlocks n rest).2 = none) :
    (splitBlocks n rest).1.length = n := by
  induction n generalizing rest with
  | zero => rfl
  | succ n ih =>
      simp only [splitBlocks] at h ⊢
      split at h
      · cases h
      · rename_i h₁
        split at h
        · cases h
        · rename_i h₂
          rw [if_neg h₁, if_neg h₂]
          simp [ih h]

theorem splitBlocks_length_le (n : ℕ) (rest : List UInt8) :
    (splitBlocks n rest).1.length ≤ n := by
  induction n generalizing rest with
  | zero => simp [splitBlocks]
  | succ n ih =>
      simp only [splitBlocks]
      split
      · simp
      · split
        · simp
        · simpa using ih _

/-- The bounds walk fails exactly where the grammar does. -/
theorem skipBlocks_eq (n : ℕ) (rest : List UInt8) :
    (match skipBlocks n rest with
      | .error e => some e
      | .ok left => if left = [] then none else some (.trailingBytes left.length)) =
      (splitBlocks n rest).2 := by
  induction n generalizing rest with
  | zero => rfl
  | succ n ih =>
      by_cases h₁ : rest.length < 2
      · simp [skipBlocks, splitBlocks, h₁]
      · by_cases h₂ : rest.length < 2 + fromBeBytes (rest.take 2)
        · simp [skipBlocks, splitBlocks, h₁, h₂]
        · simp only [skipBlocks, splitBlocks, if_neg h₁, if_neg h₂]
          exact ih _

end HftProj.Protocol.Moldudp64
