import HftProj.Lib.ReorderBuffer
import HftProj.Protocol.Itch5
import HftProj.Protocol.Moldudp64

/-!
# Framing and payload validation in one pass

`ingestWalk` is the single pass of the ingest path: it checks the bounds of each
block and hands the blocks past `skip` to a callback, in order, before the bytes
behind them have been checked. `ingestWalk_eq` splits it into the grammar of the
block area and a fold of the callback.
-/

namespace HftProj.Protocol.Packet

open HftProj.Lib Moldudp64

inductive PacketError where
  | framing (e : FrameError)
  | payload (e : Itch5.ItchError)
  deriving DecidableEq

/-- Validation memo of a frame: how many leading blocks pass `Itch5.validate`. -/
structure FrameMemo where
  validCount : ℕ
  deriving DecidableEq

section Walk

variable {σ : Type*}

/-- The block loop of `ingest_walk`; the callback leaves its state alone when it fails. -/
@[grind =]
def walkLoop (frame : List UInt8)
    (f : σ → ℕ → List UInt8 → Except Itch5.ItchError σ) :
    ℕ → ℕ → ℕ → ℕ → σ → σ × Except PacketError Unit
  | 0, pos, _, _, acc =>
      if pos ≠ frame.length then
        (acc, .error (.framing (.trailingBytes (frame.length - pos))))
      else (acc, .ok ())
  | n + 1, pos, seq, toSkip, acc =>
      if frame.length < pos + 2 then (acc, .error (.framing .blockOverrun))
      else
        let len := fromBeBytes (slice frame pos (pos + 2))
        let start := pos + 2
        let stop := start + len
        if stop > frame.length then (acc, .error (.framing .blockOverrun))
        else if toSkip > 0 then
          walkLoop frame f n stop (wrappingAdd seq 1) (toSkip - 1) acc
        else
          match f acc seq (slice frame start stop) with
          | .error e => (acc, .error (.payload e))
          | .ok acc => walkLoop frame f n stop (wrappingAdd seq 1) toSkip acc

/-- Framing walk with a callback on every block past the first `skip`. -/
def ingestWalk (frame : List UInt8) (firstSeq count skip : ℕ)
    (f : σ → ℕ → List UInt8 → Except Itch5.ItchError σ) (acc : σ) :
    σ × Except PacketError Unit :=
  walkLoop frame f count HEADER_LEN firstSeq skip acc

/-- The block loop with a callback that may change its state and then fail. -/
@[grind =]
def walkLoopMut (frame : List UInt8)
    (f : σ → ℕ → List UInt8 → σ × Except Itch5.ItchError Unit) :
    ℕ → ℕ → ℕ → ℕ → σ → σ × Except PacketError Unit
  | 0, pos, _, _, acc =>
      if pos ≠ frame.length then
        (acc, .error (.framing (.trailingBytes (frame.length - pos))))
      else (acc, .ok ())
  | n + 1, pos, seq, toSkip, acc =>
      if frame.length < pos + 2 then (acc, .error (.framing .blockOverrun))
      else
        let len := fromBeBytes (slice frame pos (pos + 2))
        let start := pos + 2
        let stop := start + len
        if stop > frame.length then (acc, .error (.framing .blockOverrun))
        else if toSkip > 0 then
          walkLoopMut frame f n stop (wrappingAdd seq 1) (toSkip - 1) acc
        else
          match f acc seq (slice frame start stop) with
          | (acc, .error e) => (acc, .error (.payload e))
          | (acc, .ok ()) => walkLoopMut frame f n stop (wrappingAdd seq 1) toSkip acc

/-- `ingestWalk` with a callback that may change its state and then fail. -/
def ingestWalkMut (frame : List UInt8) (firstSeq count skip : ℕ)
    (f : σ → ℕ → List UInt8 → σ × Except Itch5.ItchError Unit) (acc : σ) :
    σ × Except PacketError Unit :=
  walkLoopMut frame f count HEADER_LEN firstSeq skip acc

/-- A callback that fails only with its state unchanged. -/
def settled (f : σ → ℕ → List UInt8 → Except Itch5.ItchError σ) (acc : σ) (seq : ℕ)
    (data : List UInt8) : σ × Except Itch5.ItchError Unit :=
  match f acc seq data with
  | .error e => (acc, .error e)
  | .ok acc => (acc, .ok ())

/-- Fold a callback over numbered blocks until it fails. -/
@[grind =]
def foldBlocksMut (f : σ → ℕ → List UInt8 → σ × Except Itch5.ItchError Unit) :
    List (ℕ × List UInt8) → σ → σ × Option Itch5.ItchError
  | [], acc => (acc, none)
  | (q, d) :: blocks, acc =>
      match f acc q d with
      | (acc, .error e) => (acc, some e)
      | (acc, .ok ()) => foldBlocksMut f blocks acc

/-- Fold a callback over numbered blocks until it fails. -/
@[grind =]
def foldBlocks (f : σ → ℕ → List UInt8 → Except Itch5.ItchError σ) :
    List (ℕ × List UInt8) → σ → σ × Option Itch5.ItchError
  | [], acc => (acc, none)
  | (q, d) :: blocks, acc =>
      match f acc q d with
      | .error e => (acc, some e)
      | .ok acc => foldBlocks f blocks acc

end Walk

/-- Blocks numbered as the walk numbers them, wrapping at the top of the range. -/
@[grind =]
def numberWrapping : ℕ → List (List UInt8) → List (ℕ × List UInt8)
  | _, [] => []
  | q, d :: ds => (q, d) :: numberWrapping (wrappingAdd q 1) ds

theorem numberWrapping_eq {q : ℕ} {ds : List (List UInt8)} (h : q + ds.length ≤ 2 ^ 64) :
    numberWrapping q ds = number q ds := by
  induction ds generalizing q with
  | nil => rfl
  | cons d ds ih =>
      simp only [List.length_cons] at h
      cases ds with
      | nil => rfl
      | cons e ds =>
          simp only [List.length_cons] at h ih
          have hq : wrappingAdd q 1 = q + 1 := wrappingAdd_of_lt (by omega)
          rw [numberWrapping, number, hq, ih (by omega)]

/-- Strict two-phase validation: framing first, then every payload in order. -/
@[grind =]
def validateBlocks : List MessageBlock → Except PacketError Unit
  | [] => .ok ()
  | b :: bs =>
      match Itch5.validate b.data with
      | .error e => .error (.payload e)
      | .ok () => validateBlocks bs

def validateFrame (buf : List UInt8) : Except PacketError Parsed :=
  match parse buf with
  | .error e => .error (.framing e)
  | .ok (.data hdr blocks) =>
      match validateBlocks (blocks.collect blocks.remaining) with
      | .error e => .error e
      | .ok () => .ok (.data hdr blocks)
  | .ok parsed => .ok parsed

/-- The block at a position of the frame either does not fit or is the first of the area. -/
theorem splitBlocks_step (frame : List UInt8) (n pos : ℕ) :
    let stop := pos + 2 + fromBeBytes (slice frame pos (pos + 2))
    (frame.length < pos + 2 ∨ frame.length < stop) ∧
        splitBlocks (n + 1) (frame.drop pos) = ([], some .blockOverrun) ∨
      pos + 2 ≤ frame.length ∧ stop ≤ frame.length ∧ splitBlocks (n + 1) (frame.drop pos) =
        (slice frame (pos + 2) stop :: (splitBlocks n (frame.drop stop)).1,
          (splitBlocks n (frame.drop stop)).2) := by
  have hlen : (frame.drop pos).length = frame.length - pos := List.length_drop
  have htake : slice frame pos (pos + 2) = (frame.drop pos).take 2 := by simp [slice]
  by_cases h₁ : (frame.drop pos).length < 2
  · left
    exact ⟨Or.inl (by omega), by rw [splitBlocks, if_pos h₁]⟩
  by_cases h₂ : (frame.drop pos).length < 2 + fromBeBytes ((frame.drop pos).take 2)
  · left
    refine ⟨Or.inr (by rw [htake]; omega), ?_⟩
    simp only [splitBlocks, if_neg h₁, if_pos h₂]
  right
  have hdrop : (frame.drop pos).drop (2 + fromBeBytes ((frame.drop pos).take 2)) =
      frame.drop (pos + 2 + fromBeBytes (slice frame pos (pos + 2))) := by
    rw [List.drop_drop, htake, Nat.add_assoc]
  have hdata : slice (frame.drop pos) 2 (2 + fromBeBytes ((frame.drop pos).take 2)) =
      slice frame (pos + 2) (pos + 2 + fromBeBytes (slice frame pos (pos + 2))) := by
    rw [← htake]
    simp [slice, List.drop_drop]
  refine ⟨by omega, by rw [htake]; omega, ?_⟩
  simp only [splitBlocks, if_neg h₁, if_neg h₂, hdrop, hdata]

section Walk

variable {σ : Type*} {f : σ → ℕ → List UInt8 → Except Itch5.ItchError σ}
  {g : σ → ℕ → List UInt8 → σ × Except Itch5.ItchError Unit}

/-- The block area left at a position of the frame. -/
theorem walkLoopMut_eq (frame : List UInt8) (n pos seq toSkip : ℕ) (acc : σ)
    (hpos : pos ≤ frame.length) :
    walkLoopMut frame g n pos seq toSkip acc =
      (let area := splitBlocks n (frame.drop pos)
       let done := foldBlocksMut g ((numberWrapping seq area.1).drop toSkip) acc
       (done.1, match done.2, area.2 with
         | some e, _ => .error (.payload e)
         | none, some e => .error (.framing e)
         | none, none => .ok ())) := by
  induction n generalizing pos seq toSkip acc with
  | zero =>
      by_cases h : pos = frame.length
      · simp [walkLoopMut, splitBlocks, numberWrapping, foldBlocksMut, h]
      · have hlt : pos < frame.length := by omega
        simp [walkLoopMut, splitBlocks, numberWrapping, foldBlocksMut, h, Nat.not_le.mpr hlt]
  | succ n ih =>
      rcases splitBlocks_step frame n pos with ⟨hshort, hsplit⟩ | ⟨h₁, h₂, hsplit⟩
      · have hrun : walkLoopMut frame g (n + 1) pos seq toSkip acc =
            (acc, .error (.framing .blockOverrun)) := by
          simp only [walkLoopMut]
          rcases hshort with h₁ | h₂
          · rw [if_pos h₁]
          · split
            · rfl
            · rfl
        rw [hrun, hsplit]
        simp [numberWrapping, foldBlocksMut]
      · simp only [walkLoopMut, if_neg (Nat.not_lt.mpr h₁), if_neg (Nat.not_lt.mpr h₂), hsplit,
          numberWrapping]
        cases toSkip with
        | zero =>
            simp only [Nat.lt_irrefl, if_false, List.drop_zero, foldBlocksMut]
            rcases hg : g acc seq (slice frame (pos + 2)
              (pos + 2 + fromBeBytes (slice frame pos (pos + 2)))) with ⟨acc', e | u⟩
            · rfl
            · have := ih _ (wrappingAdd seq 1) 0 acc' h₂
              simpa using this
        | succ k =>
            simp only [Nat.succ_pos, if_true, Nat.add_sub_cancel, List.drop_succ_cons]
            exact ih _ _ k acc h₂

theorem walkLoop_settled (frame : List UInt8) (n pos seq toSkip : ℕ) (acc : σ) :
    walkLoop frame f n pos seq toSkip acc = walkLoopMut frame (settled f) n pos seq toSkip acc := by
  induction n generalizing pos seq toSkip acc with
  | zero => rfl
  | succ n ih =>
      simp only [walkLoop, walkLoopMut, ih, settled]
      split
      · rfl
      split
      · rfl
      split
      · rfl
      cases f acc seq _ with
      | error e => rfl
      | ok acc => rfl

theorem foldBlocks_settled (blocks : List (ℕ × List UInt8)) (acc : σ) :
    foldBlocks f blocks acc = foldBlocksMut (settled f) blocks acc := by
  induction blocks generalizing acc with
  | nil => rfl
  | cons b bs ih =>
      simp only [foldBlocks, foldBlocksMut, settled]
      cases f acc b.1 b.2 with
      | error e => rfl
      | ok acc => exact ih acc

theorem walkLoop_eq (frame : List UInt8) (n pos seq toSkip : ℕ) (acc : σ)
    (hpos : pos ≤ frame.length) :
    walkLoop frame f n pos seq toSkip acc =
      (let area := splitBlocks n (frame.drop pos)
       let done := foldBlocks f ((numberWrapping seq area.1).drop toSkip) acc
       (done.1, match done.2, area.2 with
         | some e, _ => .error (.payload e)
         | none, some e => .error (.framing e)
         | none, none => .ok ())) := by
  rw [walkLoop_settled, walkLoopMut_eq _ _ _ _ _ _ hpos]
  simp only [foldBlocks_settled]

/-- The walk is the fold of its callback over the numbered blocks past `skip`; the
framing error of the area counts only when no callback failed before it. -/
theorem ingestWalk_eq (frame : List UInt8) (firstSeq count skip : ℕ) (acc : σ)
    (hlen : HEADER_LEN ≤ frame.length) :
    ingestWalk frame firstSeq count skip f acc =
      (let area := splitBlocks count (frame.drop HEADER_LEN)
       let done := foldBlocks f ((numberWrapping firstSeq area.1).drop skip) acc
       (done.1, match done.2, area.2 with
         | some e, _ => .error (.payload e)
         | none, some e => .error (.framing e)
         | none, none => .ok ())) :=
  walkLoop_eq frame count HEADER_LEN firstSeq skip acc hlen

end Walk

/-! ## Callbacks that validate first -/

/-- Validate, then act: the shape of every walk callback of the sequencer. -/
def validated {σ : Type*} (act : σ → ℕ → List UInt8 → σ) (acc : σ) (seq : ℕ)
    (data : List UInt8) : Except Itch5.ItchError σ :=
  match Itch5.validate data with
  | .error e => .error e
  | .ok () => .ok (act acc seq data)

/-- The leading blocks that pass validation. -/
@[grind =]
def validPrefix : List (ℕ × List UInt8) → List (ℕ × List UInt8)
  | [] => []
  | b :: bs =>
      match Itch5.validate b.2 with
      | .error _ => []
      | .ok () => b :: validPrefix bs

/-- The error of the first block that fails validation. -/
@[grind =]
def firstInvalid : List (ℕ × List UInt8) → Option Itch5.ItchError
  | [] => none
  | b :: bs =>
      match Itch5.validate b.2 with
      | .error e => some e
      | .ok () => firstInvalid bs

theorem foldBlocks_validated {σ : Type*} (act : σ → ℕ → List UInt8 → σ)
    (blocks : List (ℕ × List UInt8)) (acc : σ) :
    foldBlocks (validated act) blocks acc =
      ((validPrefix blocks).foldl (fun a b => act a b.1 b.2) acc, firstInvalid blocks) := by
  induction blocks generalizing acc with
  | nil => rfl
  | cons b bs ih =>
      obtain ⟨q, d⟩ := b
      simp only [foldBlocks, validated, validPrefix, firstInvalid]
      cases hv : Itch5.validate d with
      | error e => rfl
      | ok u => simpa using ih _

theorem validPrefix_eq_take (blocks : List (ℕ × List UInt8)) :
    ∃ k, validPrefix blocks = blocks.take k := by
  induction blocks with
  | nil => exact ⟨0, rfl⟩
  | cons b bs ih =>
      obtain ⟨k, hk⟩ := ih
      simp only [validPrefix]
      cases Itch5.validate b.2 with
      | error e => exact ⟨0, rfl⟩
      | ok u => exact ⟨k + 1, by simp [hk]⟩

theorem validate_of_mem_validPrefix {blocks : List (ℕ × List UInt8)} {b : ℕ × List UInt8}
    (h : b ∈ validPrefix blocks) : b ∈ blocks ∧ Itch5.validate b.2 = .ok () := by
  induction blocks with
  | nil => simp [validPrefix] at h
  | cons c bs ih =>
      simp only [validPrefix] at h
      cases hv : Itch5.validate c.2 with
      | error e => simp [hv] at h
      | ok u =>
          rw [hv] at h
          rcases List.mem_cons.mp h with rfl | hmem
          · exact ⟨List.mem_cons_self, hv⟩
          · exact ⟨List.mem_cons_of_mem _ (ih hmem).1, (ih hmem).2⟩

theorem firstInvalid_eq_none {blocks : List (ℕ × List UInt8)} :
    firstInvalid blocks = none ↔ ∀ b ∈ blocks, Itch5.validate b.2 = .ok () := by
  induction blocks with
  | nil => simp [firstInvalid]
  | cons c bs ih =>
      simp only [firstInvalid, List.mem_cons, forall_eq_or_imp]
      cases hv : Itch5.validate c.2 with
      | error e => simp
      | ok u => simpa using ih

theorem validPrefix_eq_self {blocks : List (ℕ × List UInt8)} (h : firstInvalid blocks = none) :
    validPrefix blocks = blocks := by
  induction blocks with
  | nil => rfl
  | cons c bs ih =>
      simp only [firstInvalid, validPrefix] at h ⊢
      cases hv : Itch5.validate c.2 with
      | error e => simp [hv] at h
      | ok u =>
          rw [hv] at h
          simp only
          rw [ih h]

/-! ## The blocks of a frame -/

/-- The complete blocks at the front of the frame's block area, numbered from the header's
sequence number. -/
def headerBlocks (frame : List UInt8) (hdr : Header) : List (ℕ × List UInt8) :=
  numberWrapping hdr.seq (splitBlocks hdr.count (frame.drop HEADER_LEN)).1

/-- Away from the top of the range the blocks carry consecutive numbers. -/
theorem headerBlocks_eq {frame : List UInt8} {hdr : Header}
    (h : hdr.seq + hdr.count ≤ 2 ^ 64) :
    headerBlocks frame hdr =
      number hdr.seq (splitBlocks hdr.count (frame.drop HEADER_LEN)).1 := by
  have hle := splitBlocks_length_le hdr.count (frame.drop HEADER_LEN)
  exact numberWrapping_eq (by omega)

theorem mem_numberWrapping {q : ℕ} {ds : List (List UInt8)} {b : ℕ × List UInt8}
    (h : b ∈ numberWrapping q ds) : b.2 ∈ ds := by
  induction ds generalizing q with
  | nil => simp [numberWrapping] at h
  | cons d ds ih =>
      rcases List.mem_cons.mp h with rfl | h
      · exact List.mem_cons_self
      · exact List.mem_cons_of_mem _ (ih h)

theorem mem_headerBlocks {frame : List UInt8} {hdr : Header} {b : ℕ × List UInt8}
    (h : b ∈ headerBlocks frame hdr) :
    b.2 ∈ (splitBlocks hdr.count (frame.drop HEADER_LEN)).1 := mem_numberWrapping h

/-- The error that stops a validating walk over the blocks past `skip`, if any. -/
def walkError (frame : List UInt8) (hdr : Header) (skip : ℕ) : Option PacketError :=
  match firstInvalid ((headerBlocks frame hdr).drop skip) with
  | some e => some (.payload e)
  | none => (splitBlocks hdr.count (frame.drop HEADER_LEN)).2.map .framing

theorem ingestWalk_validated {σ : Type*} (act : σ → ℕ → List UInt8 → σ) {frame : List UInt8}
    {hdr : Header} (hhdr : parseHeader frame = .ok hdr) (skip : ℕ) (acc : σ) :
    ingestWalk frame hdr.seq hdr.count skip (validated act) acc =
      ((validPrefix ((headerBlocks frame hdr).drop skip)).foldl (fun a b => act a b.1 b.2) acc,
        match walkError frame hdr skip with
        | some e => .error e
        | none => .ok ()) := by
  rw [ingestWalk_eq _ _ _ _ _ (parseHeader_ok hhdr).1]
  simp only [foldBlocks_validated, walkError, headerBlocks]
  cases firstInvalid (List.drop skip (numberWrapping hdr.seq
    (splitBlocks hdr.count (List.drop HEADER_LEN frame)).1)) with
  | some e => rfl
  | none =>
      cases (splitBlocks hdr.count (List.drop HEADER_LEN frame)).2 with
      | some e => rfl
      | none => rfl

/-- A walk without error saw every announced block. -/
theorem walkError_none {frame : List UInt8} {hdr : Header} {skip : ℕ}
    (h : walkError frame hdr skip = none) :
    (splitBlocks hdr.count (frame.drop HEADER_LEN)).2 = none ∧
      firstInvalid ((headerBlocks frame hdr).drop skip) = none := by
  unfold walkError at h
  cases hf : firstInvalid ((headerBlocks frame hdr).drop skip) with
  | some e => simp [hf] at h
  | none => exact ⟨by simpa [hf] using h, rfl⟩

/-! ## Accepted frames -/

/-- One block of an area that splits without error. -/
theorem splitBlocks_succ {frame : List UInt8} {n pos : ℕ}
    (h : (splitBlocks (n + 1) (frame.drop pos)).2 = none) :
    let stop := pos + 2 + fromBeBytes (slice frame pos (pos + 2))
    stop ≤ frame.length ∧ splitBlocks (n + 1) (frame.drop pos) =
      (slice frame (pos + 2) stop :: (splitBlocks n (frame.drop stop)).1,
        (splitBlocks n (frame.drop stop)).2) := by
  rcases splitBlocks_step frame n pos with ⟨-, hsplit⟩ | ⟨-, hstop, hsplit⟩
  · rw [hsplit] at h
    cases h
  · exact ⟨hstop, hsplit⟩

/-- The payloads the iterator yields on an area that splits without error. -/
theorem collect_eq {n pos seq : ℕ} {area : List UInt8}
    (h : (splitBlocks n (area.drop pos)).2 = none) :
    (MessageBlocks.collect n ⟨area, pos, seq, n⟩).map MessageBlock.data =
      (splitBlocks n (area.drop pos)).1 := by
  induction n generalizing pos seq with
  | zero => rfl
  | succ n ih =>
      obtain ⟨-, hsplit⟩ := splitBlocks_succ h
      rw [hsplit] at h ⊢
      simp only [MessageBlocks.collect, MessageBlocks.next, if_neg (Nat.succ_ne_zero n),
        List.map_cons, Nat.add_sub_cancel, ih h]

theorem validateBlocks_eq_ok {blocks : List MessageBlock} :
    validateBlocks blocks = .ok () ↔
      ∀ d ∈ blocks.map MessageBlock.data, Itch5.validate d = .ok () := by
  induction blocks with
  | nil => simp [validateBlocks]
  | cons b bs ih =>
      simp only [validateBlocks, List.map_cons, List.forall_mem_cons]
      cases hv : Itch5.validate b.data with
      | error e => simp
      | ok u => simpa using ih

/-- `validateFrame` accepts the frame. -/
def Accepted (buf : List UInt8) : Prop := ∃ parsed, validateFrame buf = .ok parsed

instance (buf : List UInt8) : Decidable (Accepted buf) :=
  match h : validateFrame buf with
  | .ok parsed => isTrue ⟨parsed, h⟩
  | .error _ => isFalse fun ⟨_, hok⟩ => by simp [h] at hok

/-- What `validateFrame` checks beyond the header: nothing follows the header of a
heartbeat or an end of session, and the span and every block of a data packet are sound. -/
def Sound (buf : List UInt8) (hdr : Header) : Prop :=
  if hdr.count = HEARTBEAT_COUNT ∨ hdr.count = EOS_COUNT then buf.length = HEADER_LEN
  else hdr.span ≠ none ∧ (splitBlocks hdr.count (buf.drop HEADER_LEN)).2 = none ∧
    ∀ d ∈ (splitBlocks hdr.count (buf.drop HEADER_LEN)).1, Itch5.validate d = .ok ()

theorem Header.span_ne_none {hdr : Header}
    (h : ¬(hdr.count = HEARTBEAT_COUNT ∨ hdr.count = EOS_COUNT)) :
    hdr.span ≠ none ↔ checkedAdd hdr.seq (hdr.count - 1) ≠ none := by
  rw [Header.span, if_neg h]
  cases checkedAdd hdr.seq (hdr.count - 1) <;> simp

theorem parse_control {buf : List UInt8} {hdr : Header} (hhdr : parseHeader buf = .ok hdr)
    (hc : hdr.count = HEARTBEAT_COUNT ∨ hdr.count = EOS_COUNT) :
    Accepted buf ↔ buf.length = HEADER_LEN := by
  have hne : EOS_COUNT ≠ HEARTBEAT_COUNT := by decide
  unfold Accepted validateFrame parse
  rw [hhdr]
  rcases hc with hc | hc
  · by_cases hlen : buf.length = HEADER_LEN
    · simp [hc, hlen]
    · simp [hc, hlen]
  · by_cases hlen : buf.length = HEADER_LEN
    · simp [hc, hlen, hne]
    · simp [hc, hlen, hne]

theorem parse_data {buf : List UInt8} {hdr : Header} (hhdr : parseHeader buf = .ok hdr)
    (hc : ¬(hdr.count = HEARTBEAT_COUNT ∨ hdr.count = EOS_COUNT)) :
    Accepted buf ↔ hdr.span ≠ none ∧
      (splitBlocks hdr.count (buf.drop HEADER_LEN)).2 = none ∧
      ∀ d ∈ (splitBlocks hdr.count (buf.drop HEADER_LEN)).1, Itch5.validate d = .ok () := by
  obtain ⟨h₁, h₂⟩ := not_or.mp hc
  have hlen := (parseHeader_ok hhdr).1
  rw [Header.span_ne_none hc]
  unfold Accepted validateFrame parse
  rw [hhdr]
  by_cases hspan : checkedAdd hdr.seq (hdr.count - 1) = none
  · simp [h₁, h₂, hspan]
  · have hskip := skipBlocks_eq hdr.count (buf.drop HEADER_LEN)
    simp only [h₁, h₂, hspan, ne_eq, not_false_eq_true, and_false, if_false, true_and]
    cases hs : skipBlocks hdr.count (buf.drop HEADER_LEN) with
    | error e =>
        rw [hs] at hskip
        simp [← hskip]
    | ok rest =>
        rw [hs] at hskip
        by_cases hrest : rest = []
        · simp only [if_pos hrest] at hskip
          generalize hit : (⟨buf.drop HEADER_LEN, 0, hdr.seq, hdr.count⟩ : MessageBlocks) = it
          have hcol : (it.collect hdr.count).map MessageBlock.data =
              (splitBlocks hdr.count (buf.drop HEADER_LEN)).1 := by
            rw [← hit, collect_eq (by simpa using hskip.symm), List.drop_zero]
          have hval : validateBlocks (it.collect hdr.count) = .ok () ↔ _ := validateBlocks_eq_ok
          rw [hcol] at hval
          have hrem : it.remaining = hdr.count := by rw [← hit]
          simp only [hrest, not_true_eq_false, if_false, ← hskip, true_and, ← hval, hrem]
          cases hv : validateBlocks (it.collect hdr.count) with
          | error e => simp
          | ok u => simp
        · simp only [if_neg hrest] at hskip
          simp [hrest, ← hskip]

/-- A frame is accepted exactly when it has a header and the rest is sound. -/
theorem accepted_iff {buf : List UInt8} :
    Accepted buf ↔ ∃ hdr, parseHeader buf = .ok hdr ∧ Sound buf hdr := by
  cases hhdr : parseHeader buf with
  | error e => simp [Accepted, validateFrame, parse, hhdr]
  | ok hdr =>
      simp only [Except.ok.injEq, exists_eq_left']
      unfold Sound
      split
      · rename_i hc
        exact parse_control hhdr hc
      · rename_i hc
        exact parse_data hhdr hc

theorem Accepted.sound {buf : List UInt8} {hdr : Header} (h : Accepted buf)
    (hhdr : parseHeader buf = .ok hdr) : Sound buf hdr := by
  obtain ⟨hdr', hhdr', hs⟩ := accepted_iff.mp h
  cases hhdr.symm.trans hhdr'
  exact hs

/-- The walk over an accepted data packet ends well, wherever it starts to validate. -/
theorem Sound.walkError {buf : List UInt8} {hdr : Header} (h : Sound buf hdr)
    (hc : ¬(hdr.count = HEARTBEAT_COUNT ∨ hdr.count = EOS_COUNT)) (skip : ℕ) :
    walkError buf hdr skip = none := by
  unfold Sound at h
  rw [if_neg hc] at h
  obtain ⟨-, harea, hvalid⟩ := h
  have hnone : firstInvalid ((headerBlocks buf hdr).drop skip) = none := by
    apply firstInvalid_eq_none.mpr
    intro b hb
    exact hvalid _ (mem_headerBlocks (List.mem_of_mem_drop hb))
  rw [Packet.walkError, hnone, harea]
  rfl

end HftProj.Protocol.Packet
