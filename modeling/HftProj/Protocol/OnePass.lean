import HftProj.Protocol.RoundTrip

/-!
# One pass against parse and validate

`ingestWalk` interleaves framing and payload checks, `validateFrame` makes three walks.
The callback of the one pass sees the blocks of the iterator up to the first one that it
rejects or that does not fit, and both give the same verdict unless a frame is wrong in
its framing and in a payload.
-/

namespace HftProj.Protocol.Packet

open HftProj.Lib Moldudp64

/-! ## The calls of the callback -/

section Calls

variable {σ : Type*} {f : σ → ℕ → List UInt8 → σ × Except Itch5.ItchError Unit}

/-- A callback that also records what it was called on. -/
def logged (f : σ → ℕ → List UInt8 → σ × Except Itch5.ItchError Unit)
    (acc : σ × List MessageBlock) (seq : ℕ) (data : List UInt8) :
    (σ × List MessageBlock) × Except Itch5.ItchError Unit :=
  (((f acc.1 seq data).1, acc.2 ++ [⟨seq, data⟩]), (f acc.1 seq data).2)

/-- The blocks up to the first one that the callback rejects, that one included. -/
@[grind =]
def callsUntil (f : σ → ℕ → List UInt8 → σ × Except Itch5.ItchError Unit) :
    List MessageBlock → σ → List MessageBlock
  | [], _ => []
  | b :: blocks, acc =>
      match f acc b.seq b.data with
      | (_, .error _) => [b]
      | (acc, .ok ()) => b :: callsUntil f blocks acc

theorem foldBlocksMut_logged (blocks : List MessageBlock) (acc : σ) (log : List MessageBlock) :
    (foldBlocksMut (logged f) (blocks.map fun b => (b.seq, b.data)) (acc, log)).1.2 =
      log ++ callsUntil f blocks acc := by
  induction blocks generalizing acc log with
  | nil => exact (List.append_nil log).symm
  | cons b bs ih =>
      simp only [List.map_cons, foldBlocksMut, logged, callsUntil]
      rcases hf : f acc b.seq b.data with ⟨acc', e | u⟩
      · rfl
      · simp only [ih, List.append_assoc, List.singleton_append]

/-- How many of the announced blocks fit into the area. -/
def fitting (count : ℕ) (area : List UInt8) : ℕ := (splitBlocks count area).1.length

theorem fitting_le (count : ℕ) (area : List UInt8) : fitting count area ≤ count :=
  splitBlocks_length_le count area

/-- The blocks that fit can be skipped, and the next one cannot. -/
theorem skipBlocks_fitting (count : ℕ) (area : List UInt8) :
    (∃ rest, skipBlocks (fitting count area) area = .ok rest) ∧
      (fitting count area < count →
        skipBlocks (fitting count area + 1) area = .error .blockOverrun) := by
  induction count generalizing area with
  | zero => exact ⟨⟨area, rfl⟩, fun h => absurd h (Nat.not_lt_zero _)⟩
  | succ n ih =>
      by_cases h₁ : area.length < 2
      · have hfit : fitting (n + 1) area = 0 := by rw [fitting, splitBlocks, if_pos h₁]; rfl
        rw [hfit]
        exact ⟨⟨area, rfl⟩, fun _ => by rw [skipBlocks, if_pos h₁]⟩
      by_cases h₂ : area.length < 2 + fromBeBytes (area.take 2)
      · have hfit : fitting (n + 1) area = 0 := by
          simp only [fitting, splitBlocks, if_neg h₁, if_pos h₂, List.length_nil]
        rw [hfit]
        exact ⟨⟨area, rfl⟩, fun _ => by simp only [skipBlocks, if_neg h₁, if_pos h₂]⟩
      · have hfit : fitting (n + 1) area =
            fitting n (area.drop (2 + fromBeBytes (area.take 2))) + 1 := by
          simp only [fitting, splitBlocks, if_neg h₁, if_neg h₂, List.length_cons]
        have hskip (m : ℕ) : skipBlocks (m + 1) area =
            skipBlocks m (area.drop (2 + fromBeBytes (area.take 2))) := by
          simp only [skipBlocks, if_neg h₁, if_neg h₂]
        obtain ⟨hok, hnext⟩ := ih (area.drop (2 + fromBeBytes (area.take 2)))
        rw [hfit, hskip, hskip]
        exact ⟨hok, fun hlt => hnext (Nat.lt_of_succ_lt_succ hlt)⟩

/-- The iterator yields the blocks that fit, whatever comes behind them. -/
theorem collect_fitting (n pos seq : ℕ) (area : List UInt8) :
    (MessageBlocks.collect (fitting n (area.drop pos)) ⟨area, pos, seq, n⟩).map
        (fun b => (b.seq, b.data)) =
      numberWrapping seq (splitBlocks n (area.drop pos)).1 := by
  induction n generalizing pos seq with
  | zero => rfl
  | succ n ih =>
      rcases splitBlocks_step area n pos with ⟨-, hsplit⟩ | ⟨-, -, hsplit⟩
      · rw [fitting, hsplit]
        rfl
      · have hfit : fitting (n + 1) (area.drop pos) = fitting n
            (area.drop (pos + 2 + fromBeBytes (slice area pos (pos + 2)))) + 1 := by
          rw [fitting, hsplit]
          rfl
        rw [hfit, hsplit]
        simp only [MessageBlocks.collect, MessageBlocks.next, if_neg (Nat.succ_ne_zero n),
          Nat.add_sub_cancel, List.map_cons, ih, numberWrapping]

/-- The callback is called on the blocks of the iterator from index `skip` on, up to the
first one that it rejects or that does not fit. -/
theorem ingestWalkMut_calls (f : σ → ℕ → List UInt8 → σ × Except Itch5.ItchError Unit)
    (frame : List UInt8) (firstSeq count skip : ℕ) (acc : σ) :
    (ingestWalkMut frame firstSeq count skip (logged f) (acc, [])).1.2 =
      callsUntil f ((MessageBlocks.collect (fitting count (frame.drop HEADER_LEN))
        ⟨frame.drop HEADER_LEN, 0, firstSeq, count⟩).drop skip) acc := by
  have hblocks := collect_fitting count 0 firstSeq (frame.drop HEADER_LEN)
  rw [List.drop_zero] at hblocks
  by_cases hlen : HEADER_LEN ≤ frame.length
  · rw [ingestWalkMut, walkLoopMut_eq _ _ _ _ _ _ hlen]
    simp only [← hblocks, ← List.map_drop, foldBlocksMut_logged, List.nil_append]
  · have hnil : frame.drop HEADER_LEN = [] := List.drop_eq_nil_of_le (by omega)
    have hfit : fitting count (frame.drop HEADER_LEN) = 0 := by
      rw [hnil, fitting]
      cases count <;> rfl
    have hstop : (ingestWalkMut frame firstSeq count skip (logged f) (acc, [])).1 = (acc, []) := by
      cases count with
      | zero => simp only [ingestWalkMut, walkLoopMut]; split <;> rfl
      | succ n => rw [ingestWalkMut, walkLoopMut, if_pos (by omega)]
    rw [hstop, hfit, MessageBlocks.collect, List.drop_nil]
    rfl

/-- The number of a block is the first number plus its index, modulo the width. -/
theorem collect_seq {k pos seq count i : ℕ} {area : List UInt8} {b : MessageBlock}
    (hseq : seq < 2 ^ 64) (h : (MessageBlocks.collect k ⟨area, pos, seq, count⟩)[i]? = some b) :
    b.seq = (seq + i) % 2 ^ 64 := by
  induction k generalizing pos seq count i with
  | zero => cases h
  | succ k ih =>
      cases count with
      | zero =>
          rw [MessageBlocks.collect_exhausted rfl] at h
          cases h
      | succ n =>
          simp only [MessageBlocks.collect, MessageBlocks.next, if_neg (Nat.succ_ne_zero n)] at h
          cases i with
          | zero =>
              cases h
              exact (Nat.mod_eq_of_lt hseq).symm
          | succ i =>
              rw [List.getElem?_cons_succ] at h
              rw [ih (wrappingAdd_lt seq 1) h, wrappingAdd, Nat.mod_add_mod]
              congr 1
              omega

end Calls

/-! ## The verdict -/

/-- `validate` as a callback. -/
def validateCallback (_ : Unit) (_ : ℕ) (data : List UInt8) : Unit × Except Itch5.ItchError Unit :=
  ((), Itch5.validate data)

theorem foldBlocksMut_validate (blocks : List (ℕ × List UInt8)) :
    (foldBlocksMut validateCallback blocks ()).2 = firstInvalid blocks := by
  induction blocks with
  | nil => rfl
  | cons b bs ih =>
      simp only [foldBlocksMut, validateCallback, firstInvalid]
      cases Itch5.validate b.2 with
      | error e => rfl
      | ok u => exact ih

theorem validateBlocks_firstInvalid (blocks : List MessageBlock) :
    validateBlocks blocks =
      match firstInvalid (blocks.map fun b => (b.seq, b.data)) with
      | some e => .error (.payload e)
      | none => .ok () := by
  induction blocks with
  | nil => rfl
  | cons b bs ih =>
      simp only [validateBlocks, List.map_cons, firstInvalid]
      cases Itch5.validate b.data with
      | error e => rfl
      | ok u => exact ih

section Verdict

variable {frame : List UInt8} {hdr : Header}

/-- The one pass stops at the first invalid payload, or else where the grammar does. -/
theorem ingestWalkMut_verdict (hhdr : parseHeader frame = .ok hdr) :
    (ingestWalkMut frame hdr.seq hdr.count 0 validateCallback ()).2 =
      match walkError frame hdr 0 with
      | some e => .error e
      | none => .ok () := by
  rw [ingestWalkMut, walkLoopMut_eq _ _ _ _ _ _ (parseHeader_ok hhdr).1]
  simp only [foldBlocksMut_validate, List.drop_zero, walkError, headerBlocks]
  cases firstInvalid _ with
  | some e => rfl
  | none => cases (splitBlocks hdr.count (frame.drop HEADER_LEN)).2 <;> rfl

/-- `validateFrame` stops where the grammar does, or else at the first invalid payload. -/
theorem validateFrame_verdict (hhdr : parseHeader frame = .ok hdr)
    (hkind : hdr.kind ≠ .endOfSession)
    (hspan : hdr.kind = .data → hdr.seq + (hdr.count - 1) < 2 ^ 64) :
    (validateFrame frame).map (fun _ => ()) =
      match (splitBlocks hdr.count (frame.drop HEADER_LEN)).2 with
      | some e => .error (.framing e)
      | none => match firstInvalid (headerBlocks frame hdr) with
        | some e => .error (.payload e)
        | none => .ok () := by
  cases hk : hdr.kind with
  | endOfSession => exact absurd hk hkind
  | heartbeat =>
      have hcount : hdr.count = 0 := Header.count_of_heartbeat hk
      have hblocks : firstInvalid (headerBlocks frame hdr) = none := by
        rw [headerBlocks, hcount]
        rfl
      rw [validateFrame, parse_of_control hhdr (by rw [hk]; exact Kind.noConfusion), hblocks, hcount]
      have hle := (parseHeader_ok hhdr).1
      by_cases hlen : frame.length = HEADER_LEN
      · have hnil : frame.drop HEADER_LEN = [] := List.drop_eq_nil_of_le (by omega)
        simp [hlen, hk, hnil, splitBlocks, Except.map]
      · have hne : frame.drop HEADER_LEN ≠ [] := by
          rw [ne_eq, List.drop_eq_nil_iff]
          omega
        simp [hlen, hne, splitBlocks, Except.map]
  | data =>
      rw [validateFrame, parse_of_data hhdr hk, if_neg (Nat.not_le.mpr (hspan hk)),
        ← skipBlocks_eq hdr.count (frame.drop HEADER_LEN)]
      cases hskip : skipBlocks hdr.count (frame.drop HEADER_LEN) with
      | error e => rfl
      | ok rest =>
          by_cases hrest : rest = []
          · obtain rfl := hrest
            obtain ⟨msgs, -, -, -, hsplit⟩ := encode_data hhdr hskip
            have hcol : (MessageBlocks.collect hdr.count
                ⟨frame.drop HEADER_LEN, 0, hdr.seq, hdr.count⟩).map (fun b => (b.seq, b.data)) =
                headerBlocks frame hdr := by
              rw [MessageBlocks.collect_numbered (by rw [List.drop_zero, hsplit]) le_rfl,
                List.map_map, List.drop_zero]
              exact List.map_id _
            simp only [ne_eq, not_true_eq_false, if_false, if_true, validateBlocks_firstInvalid,
              hcol]
            cases firstInvalid (headerBlocks frame hdr) with
            | some e => rfl
            | none => rfl
          · simp only [ne_eq, hrest, not_false_eq_true, if_true, if_false]
            rfl

end Verdict

/-- Some complete block of the frame is not a valid message. -/
def PayloadBroken (frame : List UInt8) (hdr : Header) : Prop :=
  ∃ d ∈ (splitBlocks hdr.count (frame.drop HEADER_LEN)).1, Itch5.validate d ≠ .ok ()

/-- The framing of the frame breaks a rule. -/
def FramingBroken (frame : List UInt8) : Prop := ∃ e, parse frame = .error e

theorem firstInvalid_of_not_broken {frame : List UInt8} {hdr : Header}
    (h : ¬PayloadBroken frame hdr) : firstInvalid (headerBlocks frame hdr) = none := by
  apply firstInvalid_eq_none.mpr
  intro b hb
  by_contra hne
  exact h ⟨b.2, mem_headerBlocks hb, hne⟩

/-- A grammatical error of the area is one of the parser, the end of session apart. -/
theorem framingBroken_of_split {frame : List UInt8} {hdr : Header} {e : FrameError}
    (hhdr : parseHeader frame = .ok hdr) (hkind : hdr.kind ≠ .endOfSession)
    (h : (splitBlocks hdr.count (frame.drop HEADER_LEN)).2 = some e) : FramingBroken frame := by
  cases hparse : parse frame with
  | error e' => exact ⟨e', hparse⟩
  | ok parsed =>
      obtain ⟨hdr', hhdr', hcases⟩ := parse_ok_cases hparse
      cases hhdr.symm.trans hhdr'
      rcases hcases with ⟨-, -, hskip, -⟩ | ⟨hc, hlen, -⟩ | ⟨hc, -, -⟩
      · obtain ⟨msgs, -, -, -, hsplit⟩ := encode_data hhdr hskip
        rw [hsplit] at h
        cases h
      · rw [hc, List.drop_eq_nil_of_le hlen.le] at h
        cases h
      · rw [Header.kind, hc] at hkind
        exact absurd rfl hkind

/-- Where not both are broken, the two verdicts are the same. -/
theorem verdict_eq {frame : List UInt8} {hdr : Header} (hhdr : parseHeader frame = .ok hdr)
    (hkind : hdr.kind ≠ .endOfSession)
    (hspan : hdr.kind = .data → hdr.seq + (hdr.count - 1) < 2 ^ 64)
    (hone : ¬(FramingBroken frame ∧ PayloadBroken frame hdr)) :
    (ingestWalkMut frame hdr.seq hdr.count 0 validateCallback ()).2 =
      (validateFrame frame).map (fun _ => ()) := by
  rw [ingestWalkMut_verdict hhdr, walkError, List.drop_zero, validateFrame_verdict hhdr hkind hspan]
  cases hgrammar : (splitBlocks hdr.count (frame.drop HEADER_LEN)).2 with
  | none => cases firstInvalid (headerBlocks frame hdr) <;> rfl
  | some e =>
      have hbroken := framingBroken_of_split hhdr hkind hgrammar
      rw [firstInvalid_of_not_broken fun hp => hone ⟨hbroken, hp⟩]
      rfl

/-- Both accept the same frames. -/
theorem accepts_iff {frame : List UInt8} {hdr : Header} (hhdr : parseHeader frame = .ok hdr)
    (hkind : hdr.kind ≠ .endOfSession)
    (hspan : hdr.kind = .data → hdr.seq + (hdr.count - 1) < 2 ^ 64) :
    (ingestWalkMut frame hdr.seq hdr.count 0 validateCallback ()).2 = .ok () ↔
      ∃ parsed, validateFrame frame = .ok parsed := by
  have haccept : (∃ parsed, validateFrame frame = .ok parsed) ↔
      (validateFrame frame).map (fun _ => ()) = .ok () := by
    cases validateFrame frame with
    | error e => simp [Except.map]
    | ok parsed => simp [Except.map]
  rw [haccept, ingestWalkMut_verdict hhdr, walkError, List.drop_zero,
    validateFrame_verdict hhdr hkind hspan]
  cases (splitBlocks hdr.count (frame.drop HEADER_LEN)).2 with
  | none => cases firstInvalid (headerBlocks frame hdr) <;> simp
  | some e => cases firstInvalid (headerBlocks frame hdr) <;> simp

/-- The one pass accepts what `validateFrame` accepts, its callback sees exactly the blocks
of the iterator past `skip` up to the first rejected or overrunning one, and a frame that is
not wrong in two ways is refused with the same error. -/
theorem one_pass_equals_validate :
    (∀ (frame : List UInt8) (hdr : Header), parseHeader frame = .ok hdr → hdr.kind = .data →
      hdr.seq + (hdr.count - 1) < 2 ^ 64 →
      ((ingestWalkMut frame hdr.seq hdr.count 0 validateCallback ()).2 = .ok () ↔
        ∃ parsed, validateFrame frame = .ok parsed)) ∧
    (∀ (σ : Type*) (f : σ → ℕ → List UInt8 → σ × Except Itch5.ItchError Unit)
      (frame : List UInt8) (firstSeq count skip : ℕ) (acc : σ), firstSeq < 2 ^ 64 →
      let area := frame.drop HEADER_LEN
      ∃ k ≤ count, (∃ rest, skipBlocks k area = .ok rest) ∧
        (k < count → skipBlocks (k + 1) area = .error .blockOverrun) ∧
        let blocks := MessageBlocks.collect k ⟨area, 0, firstSeq, count⟩
        (∀ i b, blocks[i]? = some b → b.seq = (firstSeq + i) % 2 ^ 64) ∧
        (ingestWalkMut frame firstSeq count skip (logged f) (acc, [])).1.2 =
          callsUntil f (blocks.drop skip) acc) ∧
    (∀ (frame : List UInt8) (hdr : Header), parseHeader frame = .ok hdr →
      hdr.kind ≠ .endOfSession → (hdr.kind = .data → hdr.seq + (hdr.count - 1) < 2 ^ 64) →
      ¬(FramingBroken frame ∧ PayloadBroken frame hdr) →
      ∀ e, (ingestWalkMut frame hdr.seq hdr.count 0 validateCallback ()).2 = .error e ↔
        validateFrame frame = .error e) := by
  refine ⟨?_, ?_, ?_⟩
  · intro frame hdr hhdr hkind hspan
    exact accepts_iff hhdr (by rw [hkind]; exact Kind.noConfusion) fun _ => hspan
  · intro σ f frame firstSeq count skip acc hseq
    obtain ⟨hfits, hnext⟩ := skipBlocks_fitting count (frame.drop HEADER_LEN)
    refine ⟨fitting count (frame.drop HEADER_LEN), fitting_le _ _, hfits, hnext, ?_, ?_⟩
    · exact fun i b hb => collect_seq hseq hb
    · exact ingestWalkMut_calls f frame firstSeq count skip acc
  · intro frame hdr hhdr hkind hspan hone e
    rw [verdict_eq hhdr hkind hspan hone]
    cases validateFrame frame with
    | error e' => simp [Except.map]
    | ok parsed => simp [Except.map]

/-- A packet with an unknown message, one that ends early, and one with a byte too many. -/
theorem one_pass_equals_validate_broken :
    let session : SessionId := ⟨List.replicate 10 65, rfl⟩
    let frame := headerBytes session 5 2 ++ blockBytes [makeMsgS 5, [0]]
    let cut := headerBytes session 5 2 ++ blockBytes [makeMsgS 5]
    let long := headerBytes session 5 1 ++ blockBytes [makeMsgS 5] ++ [0]
    ¬(∃ parsed, validateFrame frame = .ok parsed) ∧
    (ingestWalkMut cut 5 2 0 (logged validateCallback) ((), [])).1.2 = [⟨5, makeMsgS 5⟩] ∧
    validateFrame long = .error (.framing (.trailingBytes 1)) := by
  intro session frame cut long
  obtain ⟨haccept, hcalls, herror⟩ := one_pass_equals_validate
  refine ⟨?_, ?_, ?_⟩
  · rw [← haccept frame ⟨session, 5, 2⟩ (by decide) (by decide) (by decide)]
    decide
  · obtain ⟨k, hk, ⟨rest, hfits⟩, hnext, -, hlog⟩ :=
      hcalls Unit validateCallback cut 5 2 0 () (by decide)
    rw [hlog]
    obtain rfl | rfl | rfl : k = 0 ∨ k = 1 ∨ k = 2 := by omega
    · exact absurd (hnext (by decide)) (by decide)
    · decide
    · have hshort : skipBlocks 2 (cut.drop HEADER_LEN) = .error .blockOverrun := by decide
      cases hshort.symm.trans hfits
  · rw [← herror long ⟨session, 5, 1⟩ (by decide) (by decide) (by decide)]
    · decide
    · rintro ⟨-, d, hd, hne⟩
      have hsplit : (splitBlocks 1 (long.drop HEADER_LEN)).1 = [makeMsgS 5] := by decide
      rw [hsplit, List.mem_singleton] at hd
      rw [hd] at hne
      exact hne (by decide)

end HftProj.Protocol.Packet
