import HftProj.Arbitrator.Tally

/-!
# Indexed ingest

A replayed frame comes with the triples of its blocks and with a memo of how many of
them pass validation. The indexed path takes its numbers and payloads from the triples
and does not walk the frame; with a memo that covers every block it does not validate
either, and it hands the run to a sink that wants spans in one call. On an exact index
both paths end in the same state and deliver the same calls.
-/

namespace HftProj.Arbitrator

open HftProj.Lib HftProj.Protocol HftProj.Protocol.Moldudp64 HftProj.Protocol.Packet

/-! ## The index of a frame -/

/-- The length-prefix walk over `n` blocks from a position of the frame. -/
@[grind =]
def walkTriples (frame : List UInt8) : ℕ → ℕ → ℕ → List Triple
  | 0, _, _ => []
  | n + 1, pos, seq =>
      let stop := pos + 2 + fromBeBytes (slice frame pos (pos + 2))
      (seq, pos + 2, stop) :: walkTriples frame n stop (seq + 1)

/-- The blocks a list of triples cuts out of the frame. -/
def cut (frame : List UInt8) (blocks : List Triple) : List (ℕ × List UInt8) :=
  blocks.map fun b => (b.1, slice frame b.2.1 b.2.2)

/-- The triples are the exact walk of a data frame whose span fits and whose blocks
fill it. -/
structure IndexOf (frame : List UInt8) (hdr : Header) (blocks : List Triple) : Prop where
  parsed : parseHeader frame = .ok hdr
  span : hdr.span ≠ none
  area : (splitBlocks hdr.count (frame.drop HEADER_LEN)).2 = none
  walk : blocks = walkTriples frame hdr.count HEADER_LEN hdr.seq

/-- An index as a publisher hands it out: empty, or exact. -/
def Indexed (frame : List UInt8) (blocks : List Triple) : Prop :=
  blocks = [] ∨ ∃ hdr, IndexOf frame hdr blocks

/-- A memo states the length of the prefix of blocks that pass validation. -/
def Memoized (frame : List UInt8) (blocks : List Triple) (memo : Option FrameMemo) : Prop :=
  ∀ m, memo = some m → m.validCount = (validPrefix (cut frame blocks)).length

section Walk

variable {frame : List UInt8} {n pos : ℕ} (seq : ℕ)

variable {seq} in
@[simp] theorem walkTriples_length : (walkTriples frame n pos seq).length = n := by
  induction n generalizing pos seq with
  | zero => rfl
  | succ n ih => simp [walkTriples, ih]

/-- The triples of a walk cut out the blocks of the area. -/
theorem cut_walkTriples (h : (splitBlocks n (frame.drop pos)).2 = none) :
    cut frame (walkTriples frame n pos seq) = number seq (splitBlocks n (frame.drop pos)).1 := by
  induction n generalizing pos seq with
  | zero => rfl
  | succ n ih =>
      obtain ⟨-, hsplit⟩ := splitBlocks_succ h
      rw [hsplit] at h ⊢
      exact congrArg (_ :: ·) (ih _ h)

/-- Dropping triples drops blocks. -/
theorem walkTriples_drop {k : ℕ} (hk : k < n) (h : (splitBlocks n (frame.drop pos)).2 = none) :
    ∃ pos', (splitBlocks (n - k) (frame.drop pos')).2 = none ∧
      (walkTriples frame n pos seq).drop k = walkTriples frame (n - k) pos' (seq + k) := by
  induction k generalizing n pos seq with
  | zero => exact ⟨pos, h, rfl⟩
  | succ k ih =>
      cases n with
      | zero => exact absurd hk (Nat.not_lt_zero _)
      | succ n =>
          obtain ⟨-, hsplit⟩ := splitBlocks_succ h
          rw [hsplit] at h
          obtain ⟨pos', harea, hdrop⟩ := ih (seq + 1) (Nat.lt_of_succ_lt_succ hk) h
          rw [Nat.succ_sub_succ]
          refine ⟨pos', harea, ?_⟩
          rw [walkTriples, List.drop_succ_cons, hdrop, Nat.add_assoc, Nat.add_comm 1 k]

/-- The last triple ends with the frame. -/
theorem walkTriples_last (h : (splitBlocks (n + 1) (frame.drop pos)).2 = none) :
    ∃ start, (walkTriples frame (n + 1) pos seq).getLast? =
      some (seq + n, start, frame.length) := by
  induction n generalizing pos seq with
  | zero =>
      obtain ⟨hle, hsplit⟩ := splitBlocks_succ h
      rw [hsplit] at h
      have hend : frame.drop (pos + 2 + fromBeBytes (slice frame pos (pos + 2))) = [] := by
        by_contra hne
        rw [splitBlocks, if_neg hne] at h
        cases h
      have hlen := List.drop_eq_nil_iff.mp hend
      refine ⟨pos + 2, ?_⟩
      simp only [walkTriples, List.getLast?_singleton, Nat.add_zero]
      rw [Nat.le_antisymm hle hlen]
  | succ n ih =>
      obtain ⟨-, hsplit⟩ := splitBlocks_succ h
      rw [hsplit] at h
      obtain ⟨start, hlast⟩ := ih (seq + 1) h
      refine ⟨start, ?_⟩
      rw [walkTriples, List.getLast?_cons, hlast, Option.getD_some]
      congr 2
      omega

variable {seq} in
theorem walkTriples_bounds {b : Triple} (hb : b ∈ walkTriples frame n pos seq) :
    pos + 2 ≤ b.2.1 ∧ b.2.1 ≤ b.2.2 := by
  induction n generalizing pos seq with
  | zero => simp [walkTriples] at hb
  | succ n ih =>
      rcases List.mem_cons.mp hb with rfl | hb
      · exact ⟨Nat.le_refl _, Nat.le_add_right _ _⟩
      · have := ih hb
        omega

/-- A slice of the tail of the frame is a slice of the frame. -/
theorem slice_drop {base start stop : ℕ} (h : base ≤ start) (hle : start ≤ stop) :
    slice (frame.drop base) (start - base) (stop - base) = slice frame start stop := by
  rw [slice, slice, List.drop_drop, Nat.add_sub_cancel' h,
    show stop - base - (start - base) = stop - start by omega]

end Walk

/-! ## The indexed path -/

/-- The first twenty bytes read as a header. -/
def headerOf (frame : List UInt8) (h : HEADER_LEN ≤ frame.length) : Header where
  session := ⟨frame.take 10, by rw [List.length_take]; unfold HEADER_LEN at h; omega⟩
  seq := fromBeBytes (slice frame 10 18)
  count := fromBeBytes (slice frame 18 20)

namespace Sequencer

/-- The frame carries the session of the live template. -/
def SessMatch (s : Sequencer) (frame : List UInt8) : Prop :=
  s.sessionLive = true ∧ fromLeBytes (slice frame 0 8) = s.sessionLo ∧
    fromLeBytes (slice frame 2 10) = s.sessionHi

instance (s : Sequencer) (frame : List UInt8) : Decidable (s.SessMatch frame) :=
  inferInstanceAs (Decidable (_ ∧ _ ∧ _))

/-- The contiguous run past `skip` as one span. -/
def spanOf (proof : LiveFeedProof) (frame : List UInt8) (blocks : List Triple)
    (first skip : ℕ) : SinkCall :=
  let n := blocks.length
  let body := slice frame (blocks.getD skip (0, 0, 0)).2.1 (blocks.getD (n - 1) (0, 0, 0)).2.2
  .onSpan proof (first + skip) (n - skip) body (blocks.drop skip)

/-- The emission of the run past `skip`: one span, or a message for each block, with the
number of messages and the error that stopped it. -/
def emitIndexed (proof : LiveFeedProof) (wantsSpans : Bool) (frame : List UInt8)
    (blocks : List Triple) (memo : Option FrameMemo) (first skip : ℕ) :
    (List SinkCall × ℕ) × Option Itch5.ItchError :=
  let n := blocks.length
  let allValid := memo.any fun m => m.validCount == n
  if allValid ∧ wantsSpans ∧ n > skip then
    (([spanOf proof frame blocks first skip], n - skip), none)
  else if allValid then
    foldBlocks (fun acc seq data => .ok (emitBlock proof acc seq data))
      (cut frame (blocks.drop skip)) ([], 0)
  else foldBlocks (validated (emitBlock proof)) (cut frame (blocks.drop skip)) ([], 0)

/-- S5, `first ≤ w`: emit the run past the duplicate prefix, then advance. -/
def indexedContiguous (s : Sequencer) (wantsSpans : Bool) (frame : List UInt8)
    (blocks : List Triple) (memo : Option FrameMemo) (first last nowNs : ℕ) : Emitting :=
  let skip := min (wrappingSub s.w first) blocks.length
  let emitted := emitIndexed ⟨s.gen⟩ wantsSpans frame blocks memo first skip
  let s := if skip ≠ 0 then s.count fun c => { c with dupMsgs := c.dupMsgs + skip } else s
  let s := s.count fun c => { c with msgsEmitted := c.msgsEmitted + emitted.1.2 }
  match emitted.2 with
  | some e => (s.count fun c => c.recordPacketError (.payload e), emitted.1.1)
  | none =>
      let r := s.advance last nowNs
      (r.1.retirePending, emitted.1.1 ++ r.2)

/-- S5, `first > w`: record gap evidence, validate and stage every block, then drain. -/
def indexedGap (s : Sequencer) (frame : List UInt8) (blocks : List Triple)
    (first last nowNs : ℕ) : Emitting :=
  (s.gapEvidence first).andThen fun s =>
    let maxClamp := if s.mutation = .offByOneClamp then wrappingAdd s.w (WINDOW_SLOTS / 2)
      else wrappingAdd s.w WINDOW_SLOTS
    let staged := foldBlocks (validated (stageBlock s.w maxClamp)) (cut frame blocks)
      (s.window, s.counters)
    let s := { s with window := staged.1.1, counters := staged.1.2 }
    match staged.2 with
    | some e => (s.count fun c => c.recordPacketError (.payload e), [])
    | none =>
        let r := (s.recordReach last).settle nowNs
        (r.1.retirePending, r.2)

def indexedFrame (s : Sequencer) (wantsSpans : Bool) (frame : List UInt8)
    (blocks : List Triple) (memo : Option FrameMemo) (first last nowNs : ℕ) : Emitting :=
  if first ≤ s.w then s.indexedContiguous wantsSpans frame blocks memo first last nowNs
  else s.indexedGap frame blocks first last nowNs

/-- S3 with the span taken from the outer triples. -/
def indexedData (s : Sequencer) (wantsSpans : Bool) (frame : List UInt8) (hdr : Header)
    (feed : FeedId) (nowNs : ℕ) (blocks : List Triple) (memo : Option FrameMemo) : Emitting :=
  if s.state = .ended then
    (s.count Counters.recordDataAfterEos, [])
  else
    match blocks.head?, blocks.getLast? with
    | some b, some b' =>
        let first := b.1
        let last := b'.1
        if s.state = .init then
          (s.anchorAt first nowNs).indexedFrame wantsSpans frame blocks memo first last nowNs
        else if last < s.w then
          (s.count fun c => c.recordDuplicate feed hdr.count, [])
        else s.indexedFrame wantsSpans frame blocks memo first last nowNs
    | _, _ => (s, [])

/-- S2 of the indexed path. -/
def indexedKind (s : Sequencer) (wantsSpans : Bool) (frame : List UInt8) (hdr : Header)
    (feed : FeedId) (nowNs : ℕ) (blocks : List Triple) (memo : Option FrameMemo) : Emitting :=
  if hdr.count = HEARTBEAT_COUNT then s.handleHeartbeat hdr.seq nowNs
  else if hdr.count = EOS_COUNT then
    let s := if s.mutation = .dropStagedAtEos then
        { s with window := { s.window with lens := fun _ => 0, stagedCount := 0 } }
      else s
    s.handleEos hdr
  else s.indexedData wantsSpans frame hdr feed nowNs blocks memo

/-- The indexed path: the session is dispatched only when it differs from the template. -/
def ingestIndexed (s : Sequencer) (wantsSpans : Bool) (frame : List UInt8) (feed : FeedId)
    (nowNs : ℕ) (blocks : List Triple) (memo : Option FrameMemo) : Emitting :=
  let s := s.countPacket frame feed
  if h : frame.length < HEADER_LEN then
    (s.count Counters.recordTruncated, [])
  else if s.state = .dead then
    (s.count fun c => { c with ignoredAfterDead := c.ignoredAfterDead + 1 }, [])
  else
    let hdr := headerOf frame (Nat.not_lt.mp h)
    let dispatched : Emitting :=
      if s.SessMatch frame then (s, []) else s.dispatchSession hdr.session
    dispatched.andThen fun s => s.indexedKind wantsSpans frame hdr feed nowNs blocks memo

/-- The router: a frame without an index takes the classic path. -/
def ingestAuto (s : Sequencer) (wantsSpans : Bool) (frame : List UInt8) (feed : FeedId)
    (nowNs : ℕ) (blocks : List Triple) (memo : Option FrameMemo) : Emitting :=
  if blocks = [] then s.ingest frame feed nowNs
  else s.ingestIndexed wantsSpans frame feed nowNs blocks memo

end Sequencer

/-! ## Spans as messages -/

/-- A span stands for the messages it carries, by the contract of `on_span`. -/
def SinkCall.expand : SinkCall → List SinkCall
  | .onSpan proof firstSeq count body blocks =>
      let start := (blocks.head?.map (·.2.1)).getD 0
      deliver proof (number firstSeq
        ((blocks.take count).map fun b => slice body (b.2.1 - start) (b.2.2 - start)))
  | call => [call]

def expand (calls : List SinkCall) : List SinkCall := calls.flatMap SinkCall.expand

@[simp] theorem expand_nil : expand [] = [] := rfl

@[simp] theorem expand_append (xs ys : List SinkCall) :
    expand (xs ++ ys) = expand xs ++ expand ys := List.flatMap_append

@[simp] theorem expand_event (ev : Event) : expand [.onEvent ev] = [.onEvent ev] := rfl

@[simp] theorem expand_deliver (proof : LiveFeedProof) (items : List (ℕ × List UInt8)) :
    expand (deliver proof items) = deliver proof items := by
  induction items with
  | nil => rfl
  | cons i items ih =>
      change _ :: expand (deliver proof items) = _
      rw [ih]
      rfl

section Index

variable {frame : List UInt8} {hdr : Header} {blocks : List Triple} (hi : IndexOf frame hdr blocks)

include hi

theorem IndexOf.length : blocks.length = hdr.count := by
  rw [hi.walk, walkTriples_length]

theorem IndexOf.bounds :
    0 < hdr.count ∧ hdr.seq + hdr.count ≤ 2 ^ 64 ∧ hdr.count ≠ EOS_COUNT ∧
      hdr.span = some (hdr.seq, hdr.seq + (hdr.count - 1)) := by
  obtain ⟨⟨first, last⟩, hs⟩ := Option.ne_none_iff_exists'.mp hi.span
  obtain ⟨rfl, rfl, h₃, h₄, h₅⟩ := Header.span_eq_some hs
  exact ⟨h₄, by omega, h₅, hs⟩

theorem IndexOf.head : ∃ b, blocks.head? = some b ∧ b.1 = hdr.seq := by
  obtain ⟨hpos, -, -, -⟩ := hi.bounds
  obtain ⟨n, hn⟩ : ∃ n, hdr.count = n + 1 := ⟨hdr.count - 1, by omega⟩
  rw [hi.walk, hn]
  exact ⟨_, rfl, rfl⟩

/-- An exact index cuts out the blocks that the walk of the frame finds. -/
theorem IndexOf.cut : cut frame blocks = headerBlocks frame hdr := by
  obtain ⟨-, hlim, -, -⟩ := hi.bounds
  rw [hi.walk, cut_walkTriples _ hi.area, headerBlocks_eq hlim]

/-- The first block starts behind the header and its length prefix. -/
theorem IndexOf.start : (blocks.getD 0 (0, 0, 0)).2.1 = HEADER_LEN + 2 := by
  obtain ⟨hpos, -, -, -⟩ := hi.bounds
  obtain ⟨n, hn⟩ : ∃ n, hdr.count = n + 1 := ⟨hdr.count - 1, by omega⟩
  rw [hi.walk, hn]
  rfl

/-- The last block ends with the frame. -/
theorem IndexOf.stop : (blocks.getD (blocks.length - 1) (0, 0, 0)).2.2 = frame.length := by
  obtain ⟨hpos, -, -, -⟩ := hi.bounds
  obtain ⟨n, hn⟩ : ∃ n, hdr.count = n + 1 := ⟨hdr.count - 1, by omega⟩
  have harea := hi.area
  rw [hn] at harea
  obtain ⟨start, hget⟩ := walkTriples_last hdr.seq harea
  rw [List.getD_eq_getElem?_getD, ← List.getLast?_eq_getElem?, hi.walk, hn, hget]
  rfl

/-- The span past a duplicate prefix stands for the blocks past it. -/
theorem IndexOf.expand_span {skip : ℕ} (hskip : skip < blocks.length) (proof : LiveFeedProof) :
    expand [Sequencer.spanOf proof frame blocks hdr.seq skip] =
      deliver proof ((headerBlocks frame hdr).drop skip) := by
  obtain ⟨hpos, hlim, -, -⟩ := hi.bounds
  have hlen := hi.length
  obtain ⟨pos, harea, hdrop⟩ := walkTriples_drop hdr.seq (hlen ▸ hskip) hi.area
  rw [← hi.walk] at hdrop
  obtain ⟨n, hn⟩ : ∃ n, hdr.count - skip = n + 1 := ⟨hdr.count - skip - 1, by omega⟩
  rw [hn] at hdrop harea
  have hfirst : (blocks.getD skip (0, 0, 0)).2.1 = pos + 2 := by
    rw [List.getD_eq_getElem?_getD, ← List.head?_drop, hdrop]
    rfl
  have hlast := hi.stop
  have hbody : slice frame (pos + 2) frame.length = frame.drop (pos + 2) := by
    rw [slice, ← List.length_drop, List.take_length]
  have htake : (blocks.drop skip).take (blocks.length - skip) = blocks.drop skip := by
    rw [← List.length_drop, List.take_length]
  have hcut : (blocks.drop skip).map (fun b => slice (frame.drop (pos + 2)) (b.2.1 - (pos + 2))
      (b.2.2 - (pos + 2))) = (splitBlocks (n + 1) (frame.drop pos)).1 := by
    have hmap := congrArg (List.map Prod.snd) (cut_walkTriples (hdr.seq + skip) harea)
    rw [number_snd, Arbitrator.cut, List.map_map] at hmap
    rw [← hmap, hdrop]
    apply List.map_congr_left
    intro b hb
    obtain ⟨h₁, h₂⟩ := walkTriples_bounds hb
    exact slice_drop h₁ h₂
  have hhead : ((blocks.drop skip).head?.map (·.2.1)).getD 0 = pos + 2 := by
    rw [hdrop]
    rfl
  rw [← hi.cut, Arbitrator.cut, ← List.map_drop]
  change deliver proof (number (hdr.seq + skip) _) ++ [] = deliver proof (Arbitrator.cut frame _)
  rw [List.append_nil, hhead, htake, hfirst, hlast, hbody, hcut, hdrop, cut_walkTriples _ harea]

/-- On an exact index only a payload stops the walk. -/
theorem IndexOf.walkError (skip : ℕ) :
    walkError frame hdr skip =
      (firstInvalid ((headerBlocks frame hdr).drop skip)).map .payload := by
  unfold Packet.walkError
  rw [hi.area]
  cases firstInvalid ((headerBlocks frame hdr).drop skip) with
  | some e => rfl
  | none => rfl

/-- A memo that covers every block proves them valid. -/
theorem IndexOf.valid {memo : Option FrameMemo} (hm : Memoized frame blocks memo)
    (hall : memo.any (fun m => m.validCount == blocks.length) = true) (skip : ℕ) :
    firstInvalid ((headerBlocks frame hdr).drop skip) = none := by
  obtain ⟨m, rfl, hcount⟩ : ∃ m, memo = some m ∧ m.validCount = blocks.length := by
    cases memo with
    | none => cases hall
    | some m => exact ⟨m, rfl, by simpa using hall⟩
  have hlen : (validPrefix (headerBlocks frame hdr)).length = (headerBlocks frame hdr).length := by
    rw [← hi.cut, ← hm m rfl, hcount, Arbitrator.cut, List.length_map]
  obtain ⟨k, hk⟩ := validPrefix_eq_take (headerBlocks frame hdr)
  have htake : (headerBlocks frame hdr).take k = headerBlocks frame hdr := by
    rw [hk, List.length_take] at hlen
    exact List.take_of_length_le (by omega)
  apply firstInvalid_eq_none.mpr
  intro b hb
  have hmem := List.mem_of_mem_drop hb
  rw [← htake, ← hk] at hmem
  exact (validate_of_mem_validPrefix hmem).2

/-- The indexed emission delivers the blocks past `skip` up to the first invalid one. -/
theorem IndexOf.emit {memo : Option FrameMemo} (hm : Memoized frame blocks memo)
    (wantsSpans : Bool) (proof : LiveFeedProof) (skip : ℕ) :
    let items := (headerBlocks frame hdr).drop skip
    ∃ calls, Sequencer.emitIndexed proof wantsSpans frame blocks memo hdr.seq skip =
        ((calls, (validPrefix items).length), firstInvalid items) ∧
      expand calls = deliver proof (validPrefix items) := by
  have hcut : Arbitrator.cut frame (blocks.drop skip) = (headerBlocks frame hdr).drop skip := by
    rw [← hi.cut, Arbitrator.cut, Arbitrator.cut, List.map_drop]
  have hdone : ∀ items, foldBlocks (fun acc seq data => .ok (Sequencer.emitBlock proof acc seq data))
      items (([], 0) : List SinkCall × ℕ) = ((deliver proof items, items.length), none) := by
    intro items
    have hfold : ∀ acc, foldBlocks
        (fun acc seq data => .ok (Sequencer.emitBlock proof acc seq data)) items acc =
        (items.foldl (fun a b => Sequencer.emitBlock proof a b.1 b.2) acc, none) := by
      induction items with
      | nil => exact fun _ => rfl
      | cons i items ih => exact fun acc => ih _
    rw [hfold, Sequencer.foldl_emitBlock, List.nil_append, Nat.zero_add]
  dsimp only
  unfold Sequencer.emitIndexed
  dsimp only
  by_cases hall : memo.any (fun m => m.validCount == blocks.length) = true
  · have hnone := hi.valid hm hall skip
    rw [validPrefix_eq_self hnone, hnone]
    split
    · rename_i hspan
      refine ⟨_, ?_, hi.expand_span hspan.2.2 proof⟩
      rw [← hcut, Arbitrator.cut, List.length_map, List.length_drop]
    · rw [hcut, hdone]
      exact ⟨_, rfl, expand_deliver _ _⟩
  · rw [if_neg fun h => hall h.1, if_neg hall, hcut, foldBlocks_validated,
      Sequencer.foldl_emitBlock, List.nil_append, Nat.zero_add]
    exact ⟨_, rfl, expand_deliver _ _⟩

end Index

namespace Sequencer

/-- The first step ends in the state of the second one and its calls expand to those of
the second one. -/
structure Expands (r r' : Emitting) : Prop where
  state : r.1 = r'.1
  calls : expand r.2 = r'.2

theorem Expands.andThen {r r' : Emitting} {g g' : Sequencer → Emitting} (h : Expands r r')
    (hg : Expands (g r'.1) (g' r'.1)) : Expands (r.andThen g) (r'.andThen g') := by
  constructor
  · rw [Traced.andThen_fst, Traced.andThen_fst, h.state, hg.state]
  · rw [Traced.andThen_snd, Traced.andThen_snd, expand_append, h.calls, h.state, hg.calls]

theorem Expands.silent (s : Sequencer) : Expands (s, []) (s, []) := ⟨rfl, rfl⟩

section Plain

variable (s : Sequencer)

theorem gapEvidence_expands (x : ℕ) : Expands (s.gapEvidence x) (s.gapEvidence x) := by
  refine ⟨rfl, ?_⟩
  rcases s.gapEvidence_calls x with h | h <;> rw [h] <;> rfl

theorem checkGapClose_expands (gen : ℕ) :
    Expands (s.checkGapClose gen) (s.checkGapClose gen) := by
  refine ⟨rfl, ?_⟩
  rcases s.checkGapClose_calls gen with h | h <;> rw [h] <;> rfl

theorem drainWindow_expands (gen nowNs : ℕ) :
    Expands (s.drainWindow gen nowNs) (s.drainWindow gen nowNs) := by
  obtain ⟨items, hcalls⟩ := s.window.drain_deliver s.w gen
  have hdrain : (s.drainWindow gen nowNs).2 = deliver ⟨gen⟩ items := hcalls
  refine ⟨rfl, ?_⟩
  rw [hdrain, expand_deliver]

theorem advance_expands (last nowNs : ℕ) : Expands (s.advance last nowNs) (s.advance last nowNs) := by
  rw [advance_eq]
  exact (drainWindow_expands _ _ _).andThen (checkGapClose_expands _ _)

theorem settle_expands (nowNs : ℕ) : Expands (s.settle nowNs) (s.settle nowNs) :=
  (drainWindow_expands _ _ _).andThen (checkGapClose_expands _ _)

theorem handleHeartbeat_expands (seq nowNs : ℕ) :
    Expands (s.handleHeartbeat seq nowNs) (s.handleHeartbeat seq nowNs) := by
  refine ⟨rfl, ?_⟩
  rcases s.handleHeartbeat_calls seq nowNs with h | h <;> rw [h] <;> rfl

theorem handleEos_expands (hdr : Header) : Expands (s.handleEos hdr) (s.handleEos hdr) := by
  refine ⟨rfl, ?_⟩
  rcases s.handleEos_calls hdr with h | h <;> rw [h] <;> rfl

theorem dispatchSession_expands (next : SessionId) :
    Expands (s.dispatchSession next) (s.dispatchSession next) := by
  refine ⟨rfl, ?_⟩
  have hd := s.dispatchSession_dispatched next
  generalize (s.dispatchSession next).2 = calls at hd ⊢
  generalize (s.dispatchSession next).1 = t at hd
  cases hd <;> rfl

end Plain

section Classic

variable {frame : List UInt8} {hdr : Header} (s : Sequencer) (hhdr : parseHeader frame = .ok hdr)

include hhdr

theorem applyFrame_expands (last nowNs : ℕ) :
    Expands (s.applyFrame frame hdr hdr.seq last nowNs)
      (s.applyFrame frame hdr hdr.seq last nowNs) := by
  refine ⟨rfl, ?_⟩
  unfold applyFrame
  split
  · rw [applyContiguous_walk s hhdr]
    dsimp only
    cases walkError frame hdr (min (wrappingSub s.w hdr.seq) hdr.count) with
    | some e => exact expand_deliver _ _
    | none =>
        dsimp only
        rw [expand_append, expand_deliver, (advance_expands _ last nowNs).calls]
  · rw [applyGap_walk s hhdr]
    refine ((s.gapEvidence_expands hdr.seq).andThen ?_).calls
    dsimp only
    cases walkError frame hdr 0 with
    | some e => exact Expands.silent _
    | none => exact ⟨rfl, (settle_expands _ nowNs).calls⟩

theorem ingestData_expands (feed : FeedId) (nowNs : ℕ) :
    Expands (s.ingestData frame hdr feed nowNs) (s.ingestData frame hdr feed nowNs) := by
  unfold ingestData
  split
  · exact Expands.silent _
  cases hspan : hdr.span with
  | none => exact Expands.silent _
  | some span =>
      obtain ⟨first, last⟩ := span
      obtain ⟨rfl, -⟩ := Header.span_eq_some hspan
      dsimp only
      split
      · exact (s.anchorAt hdr.seq nowNs).applyFrame_expands hhdr _ nowNs
      split
      · exact Expands.silent _
      · exact s.applyFrame_expands hhdr _ nowNs

end Classic

/-- The classic path makes no spans. -/
theorem ingest_expands (s : Sequencer) (frame : List UInt8) (feed : FeedId) (nowNs : ℕ) :
    Expands (s.ingest frame feed nowNs) (s.ingest frame feed nowNs) := by
  unfold ingest
  dsimp only
  split
  · exact Expands.silent _
  cases hhdr : parseHeader frame with
  | error e => exact Expands.silent _
  | ok hdr =>
      dsimp only
      split
      · exact Expands.silent _
      apply (dispatchSession_expands _ hdr.session).andThen
      unfold ingestKind
      split
      · exact handleHeartbeat_expands _ hdr.seq nowNs
      split
      · exact handleEos_expands _ hdr
      · exact ingestData_expands _ hhdr feed nowNs

section Index

variable {frame : List UInt8} {hdr : Header} {blocks : List Triple} {memo : Option FrameMemo}
  (s : Sequencer) (hi : IndexOf frame hdr blocks)

include hi

theorem indexedContiguous_expands (hm : Memoized frame blocks memo) (wantsSpans : Bool)
    (last nowNs : ℕ) :
    Expands (s.indexedContiguous wantsSpans frame blocks memo hdr.seq last nowNs)
      (s.applyContiguous frame hdr hdr.seq last nowNs) := by
  rw [applyContiguous_walk s hi.parsed]
  unfold indexedContiguous
  rw [hi.length]
  dsimp only
  generalize min (wrappingSub s.w hdr.seq) hdr.count = skip
  obtain ⟨calls, hemit, hcalls⟩ := hi.emit hm wantsSpans ⟨s.gen⟩ skip
  have hdup : ∀ n, (if skip ≠ 0 then s.count fun c => { c with dupMsgs := c.dupMsgs + skip }
      else s).count (fun c => { c with msgsEmitted := c.msgsEmitted + n }) =
      s.count fun c => { c with dupMsgs := c.dupMsgs + skip, msgsEmitted := c.msgsEmitted + n } := by
    intro n
    by_cases h0 : skip = 0
    · rw [if_neg (not_not.mpr h0), h0]
      rfl
    · rw [if_pos h0]
      rfl
  rw [hemit, hi.walkError]
  dsimp only
  rw [hdup]
  cases firstInvalid ((headerBlocks frame hdr).drop skip) with
  | some e => exact ⟨rfl, hcalls⟩
  | none =>
      refine ⟨rfl, ?_⟩
      rw [Option.map_none, expand_append, hcalls, (advance_expands _ last nowNs).calls]

theorem indexedGap_expands (last nowNs : ℕ) :
    Expands (s.indexedGap frame blocks hdr.seq last nowNs)
      (s.applyGap frame hdr hdr.seq last nowNs) := by
  rw [applyGap_walk s hi.parsed]
  unfold indexedGap
  apply (s.gapEvidence_expands hdr.seq).andThen
  dsimp only
  rw [hi.cut, hi.walkError, foldBlocks_validated, List.drop_zero]
  cases firstInvalid (headerBlocks frame hdr) with
  | some e => exact Expands.silent _
  | none => exact ⟨rfl, (settle_expands _ nowNs).calls⟩

theorem indexedFrame_expands (hm : Memoized frame blocks memo) (wantsSpans : Bool)
    (last nowNs : ℕ) :
    Expands (s.indexedFrame wantsSpans frame blocks memo hdr.seq last nowNs)
      (s.applyFrame frame hdr hdr.seq last nowNs) := by
  unfold indexedFrame applyFrame
  split
  · exact s.indexedContiguous_expands hi hm wantsSpans last nowNs
  · exact s.indexedGap_expands hi last nowNs

/-- The outer triples of an exact index give the span of the header. -/
theorem indexedData_expands (hm : Memoized frame blocks memo) (wantsSpans : Bool)
    (feed : FeedId) (nowNs : ℕ) :
    Expands (s.indexedData wantsSpans frame hdr feed nowNs blocks memo)
      (s.ingestData frame hdr feed nowNs) := by
  obtain ⟨hpos, -, -, hspan⟩ := hi.bounds
  obtain ⟨n, hn⟩ : ∃ n, hdr.count = n + 1 := ⟨hdr.count - 1, by omega⟩
  have harea := hi.area
  rw [hn] at harea
  obtain ⟨start, hlast⟩ := walkTriples_last hdr.seq harea
  rw [← hn, ← hi.walk] at hlast
  obtain ⟨b, hhead, hb⟩ := hi.head
  unfold indexedData ingestData
  rw [hhead, hlast, hspan, hn, Nat.add_sub_cancel]
  dsimp only
  rw [hb]
  split
  · exact Expands.silent _
  split
  · exact (s.anchorAt hdr.seq nowNs).indexedFrame_expands hi hm wantsSpans _ nowNs
  split
  · exact Expands.silent _
  · exact s.indexedFrame_expands hi hm wantsSpans _ nowNs

theorem indexedKind_expands (hm : Memoized frame blocks memo) (wantsSpans : Bool)
    (feed : FeedId) (nowNs : ℕ) :
    Expands (s.indexedKind wantsSpans frame hdr feed nowNs blocks memo)
      (s.ingestKind frame hdr feed nowNs) := by
  unfold indexedKind ingestKind
  split
  · exact s.handleHeartbeat_expands hdr.seq nowNs
  split
  · exact handleEos_expands _ hdr
  · exact s.indexedData_expands hi hm wantsSpans feed nowNs

end Index

/-! ## The session template -/

/-- A live template is that of the current session, which is not the all-zero id. -/
def Template (s : Sequencer) : Prop :=
  s.sessionLive = true → s.session ≠ zeroSession ∧
    s.sessionLo = fromLeBytes (s.session.1.take 8) ∧
    s.sessionHi = fromLeBytes ((s.session.1.drop 2).take 8)

theorem new_template : new.Template := fun h => absurd h (by decide)

theorem refreshSessionTmpl_template (s : Sequencer) : s.refreshSessionTmpl.Template :=
  fun h => ⟨of_decide_eq_true h, rfl, rfl⟩

theorem dispatchSession_template {s : Sequencer} (h : s.Template) (next : SessionId) :
    (s.dispatchSession next).1.Template := by
  unfold dispatchSession
  dsimp only
  by_cases hs : s.session = zeroSession
  · have hrun : s.sessionDispatch next = ({ s with
        session := next
        counters := { s.counters with sessions := s.counters.sessions + 1 } }, []) := if_pos hs
    have hlive : s.sessionLive = false := by
      by_contra hl
      exact (h (by simpa using hl)).1 hs
    rw [hrun, if_pos (Or.inl hlive)]
    exact refreshSessionTmpl_template _
  by_cases hn : s.session = next
  · have hrun : s.sessionDispatch next = (s, []) := by
      simp only [sessionDispatch, if_neg hs, if_neg (not_not.mpr hn)]
    rw [hrun]
    split
    · exact refreshSessionTmpl_template s
    · exact h
  · have hnext : (s.sessionDispatch next).1.session = next :=
      session_of_core (sessionDispatch_boundary hs hn).1
    rw [if_pos (Or.inr (by rw [hnext]; exact Ne.symm hn))]
    exact refreshSessionTmpl_template _

/-- The frame's compare words are those of its header's session. -/
theorem SessMatch.session {s : Sequencer} (h : s.Template) {frame : List UInt8}
    (hm : s.SessMatch frame) (hlen : HEADER_LEN ≤ frame.length) :
    s.session ≠ zeroSession ∧ s.session = (headerOf frame hlen).session := by
  obtain ⟨hlive, hlo, hhi⟩ := hm
  obtain ⟨hne, hlo', hhi'⟩ := h hlive
  have hframe : 10 ≤ frame.length := by
    unfold HEADER_LEN at hlen
    omega
  have hten := s.session.2
  have hfront : s.session.1.take 8 = slice frame 0 8 := by
    apply fromLeBytes_injective
    · rw [List.length_take, hten, slice_length (by omega)]
      rfl
    · rw [← hlo', hlo]
  have hback : (s.session.1.drop 2).take 8 = slice frame 2 10 := by
    apply fromLeBytes_injective
    · rw [List.length_take, List.length_drop, hten, slice_length hframe]
      rfl
    · rw [← hhi', hhi]
  refine ⟨hne, Subtype.ext ?_⟩
  change s.session.1 = frame.take 10
  apply List.ext_getElem?
  intro i
  rcases lt_or_ge i 8 with hi | hi
  · have := congrArg (·[i]?) hfront
    simpa [slice, List.getElem?_take, hi, show i < 10 by omega] using this
  · obtain ⟨j, rfl⟩ := Nat.exists_eq_add_of_le (show 2 ≤ i by omega)
    have hj := congrArg (·[j]?) hback
    by_cases hj8 : j < 8
    · simpa [slice, List.getElem?_take, hj8, show 2 + j < 10 by omega] using hj
    · rw [List.getElem?_eq_none (by omega), List.getElem?_eq_none (by rw [List.length_take]; omega)]

/-! ## Fields that few operations touch -/

/-- The fields that only a session dispatch sets, and the mutation, which nothing sets. -/
def identity (s : Sequencer) : SessionId × ℕ × ℕ × Bool × SequencerMutation :=
  (s.session, s.sessionLo, s.sessionHi, s.sessionLive, s.mutation)

theorem Template.congr {s t : Sequencer} (h : s.Template) (ht : t.identity = s.identity) :
    t.Template := by
  simp only [identity, Prod.mk.injEq] at ht
  obtain ⟨h₁, h₂, h₃, h₄, -⟩ := ht
  intro hlive
  rw [h₁, h₂, h₃]
  exact h (h₄ ▸ hlive)

section Identity

variable (s : Sequencer)

theorem gapEvidence_identity (x : ℕ) : (s.gapEvidence x).1.identity = s.identity := by
  unfold gapEvidence
  split_ifs <;> rfl

theorem checkGapClose_identity (gen : ℕ) : (s.checkGapClose gen).1.identity = s.identity := by
  unfold checkGapClose
  split <;> rfl

theorem retirePending_identity : s.retirePending.identity = s.identity := by
  unfold retirePending
  split
  · split <;> rfl
  · rfl

theorem handleHeartbeat_identity (seq nowNs : ℕ) :
    (s.handleHeartbeat seq nowNs).1.identity = s.identity := by
  unfold handleHeartbeat
  dsimp only [count]
  split_ifs
  · rfl
  · rfl
  · rfl
  · exact gapEvidence_identity _ seq
  · rfl

theorem handleEos_identity (hdr : Header) : (s.handleEos hdr).1.identity = s.identity := by
  unfold handleEos
  dsimp only [count]
  split_ifs <;> rfl

theorem sealDead_identity (reason : DeadReason) :
    (s.sealDead reason).1.identity = s.identity := by
  unfold sealDead
  split <;> rfl

theorem checkRecoveryIntent_identity (nowNs : ℕ) :
    (s.checkRecoveryIntent nowNs).1.identity = s.identity := by
  unfold checkRecoveryIntent
  split
  · split
    · rfl
    · split <;> rfl
  · dsimp only
    split
    · rfl
    · split
      · rfl
      · split <;> rfl

theorem advance_identity (last nowNs : ℕ) : (s.advance last nowNs).1.identity = s.identity := by
  rw [advance_eq, Traced.andThen_fst, checkGapClose_identity]
  rfl

theorem settle_identity (nowNs : ℕ) : (s.settle nowNs).1.identity = s.identity :=
  checkGapClose_identity _ _

theorem applyContiguous_identity (frame : List UInt8) (hdr : Header) (first last nowNs : ℕ) :
    (s.applyContiguous frame hdr first last nowNs).1.identity = s.identity := by
  unfold applyContiguous
  dsimp only
  split
  · split <;> rfl
  · dsimp only
    rw [retirePending_identity, advance_identity]
    split <;> rfl

theorem applyGap_identity (frame : List UInt8) (hdr : Header) (first last nowNs : ℕ) :
    (s.applyGap frame hdr first last nowNs).1.identity = s.identity := by
  unfold applyGap
  rw [Traced.andThen_fst, ← s.gapEvidence_identity first]
  dsimp only
  split
  · rfl
  · dsimp only
    rw [retirePending_identity, settle_identity]
    rfl

theorem indexedContiguous_identity (wantsSpans : Bool) (frame : List UInt8)
    (blocks : List Triple) (memo : Option FrameMemo) (first last nowNs : ℕ) :
    (s.indexedContiguous wantsSpans frame blocks memo first last nowNs).1.identity =
      s.identity := by
  unfold indexedContiguous
  dsimp only
  split
  · split <;> rfl
  · dsimp only
    rw [retirePending_identity, advance_identity]
    split <;> rfl

theorem indexedGap_identity (frame : List UInt8) (blocks : List Triple) (first last nowNs : ℕ) :
    (s.indexedGap frame blocks first last nowNs).1.identity = s.identity := by
  unfold indexedGap
  rw [Traced.andThen_fst, ← s.gapEvidence_identity first]
  dsimp only
  split
  · rfl
  · dsimp only
    rw [retirePending_identity, settle_identity]
    rfl

theorem ingestKind_identity (frame : List UInt8) (hdr : Header) (feed : FeedId) (nowNs : ℕ) :
    (s.ingestKind frame hdr feed nowNs).1.identity = s.identity := by
  have hframe : ∀ (t : Sequencer) first last, t.identity = s.identity →
      (t.applyFrame frame hdr first last nowNs).1.identity = s.identity := by
    intro t first last ht
    unfold applyFrame
    split
    · rw [applyContiguous_identity, ht]
    · rw [applyGap_identity, ht]
  unfold ingestKind
  split
  · exact handleHeartbeat_identity _ _ _
  split
  · dsimp only
    rw [handleEos_identity]
    split <;> rfl
  unfold ingestData
  split
  · rfl
  cases hdr.span with
  | none => rfl
  | some span =>
      dsimp only
      split
      · exact hframe _ _ _ rfl
      split
      · rfl
      · exact hframe _ _ _ rfl

theorem indexedKind_identity (wantsSpans : Bool) (frame : List UInt8) (hdr : Header)
    (feed : FeedId) (nowNs : ℕ) (blocks : List Triple) (memo : Option FrameMemo) :
    (s.indexedKind wantsSpans frame hdr feed nowNs blocks memo).1.identity = s.identity := by
  have hframe : ∀ (t : Sequencer) first last, t.identity = s.identity →
      (t.indexedFrame wantsSpans frame blocks memo first last nowNs).1.identity = s.identity := by
    intro t first last ht
    unfold indexedFrame
    split
    · rw [indexedContiguous_identity, ht]
    · rw [indexedGap_identity, ht]
  unfold indexedKind
  split
  · exact handleHeartbeat_identity _ _ _
  split
  · dsimp only
    rw [handleEos_identity]
    split <;> rfl
  unfold indexedData
  split
  · rfl
  split
  · dsimp only
    split
    · exact hframe _ _ _ rfl
    split
    · rfl
    · exact hframe _ _ _ rfl
  · rfl

end Identity

/-- The template stays that of the session, and the mutation stays, whatever is ingested. -/
structure Standing (s t : Sequencer) : Prop where
  template : s.Template → t.Template
  mutation : t.mutation = s.mutation

theorem Standing.of_identity {s t : Sequencer} (h : t.identity = s.identity) : Standing s t where
  template := fun hs => hs.congr h
  mutation := congrArg (·.2.2.2.2) h

theorem Standing.trans {s t u : Sequencer} (h : Standing s t) (h' : Standing t u) :
    Standing s u where
  template := fun hs => h'.template (h.template hs)
  mutation := h'.mutation.trans h.mutation

theorem dispatchSession_standing (s : Sequencer) (next : SessionId) :
    Standing s (s.dispatchSession next).1 where
  template := fun h => dispatchSession_template h next
  mutation := by
    unfold dispatchSession sessionDispatch
    dsimp only
    split_ifs <;> rfl

theorem ingest_standing (s : Sequencer) (frame : List UInt8) (feed : FeedId) (nowNs : ℕ) :
    Standing s (s.ingest frame feed nowNs).1 := by
  have hcount : Standing s (s.countPacket frame feed) := .of_identity rfl
  refine hcount.trans ?_
  unfold ingest
  generalize s.countPacket frame feed = t
  dsimp only
  split
  · exact .of_identity rfl
  cases parseHeader frame with
  | error e => exact .of_identity rfl
  | ok hdr =>
      dsimp only
      split
      · exact .of_identity rfl
      · exact (dispatchSession_standing t _).trans
          (.of_identity (ingestKind_identity _ frame hdr feed nowNs))

theorem ingestAuto_standing (s : Sequencer) (wantsSpans : Bool) (frame : List UInt8)
    (feed : FeedId) (nowNs : ℕ) (blocks : List Triple) (memo : Option FrameMemo) :
    Standing s (s.ingestAuto wantsSpans frame feed nowNs blocks memo).1 := by
  unfold ingestAuto
  split
  · exact s.ingest_standing frame feed nowNs
  have hcount : Standing s (s.countPacket frame feed) := .of_identity rfl
  refine hcount.trans ?_
  unfold ingestIndexed
  generalize s.countPacket frame feed = t
  dsimp only
  split
  · exact .of_identity rfl
  split
  · exact .of_identity rfl
  rw [Traced.andThen_fst]
  refine Standing.trans ?_ (.of_identity (indexedKind_identity _ _ _ _ _ _ _ _))
  split
  · exact .of_identity rfl
  · exact dispatchSession_standing t _

/-! ## Indexed ingest is classic ingest -/

/-- A frame that matches a live template needs no dispatch. -/
theorem SessMatch.dispatch {s : Sequencer} (h : s.Template) {frame : List UInt8}
    (hm : s.SessMatch frame) (hlen : HEADER_LEN ≤ frame.length) :
    s.dispatchSession (headerOf frame hlen).session = (s, []) := by
  obtain ⟨hne, hsame⟩ := hm.session h hlen
  have hrun : s.sessionDispatch (headerOf frame hlen).session = (s, []) := by
    simp only [sessionDispatch, if_neg hne, if_neg (not_not.mpr hsame)]
  unfold dispatchSession
  dsimp only
  rw [hrun, if_neg]
  rintro (hl | hl)
  · rw [hm.1] at hl
    cases hl
  · exact hl rfl

theorem parseHeader_headerOf {frame : List UInt8} (h : HEADER_LEN ≤ frame.length) :
    parseHeader frame = .ok (headerOf frame h) := dif_neg (Nat.not_lt.mpr h)

/-- On an exact index the indexed path does what the classic path does. -/
theorem ingestIndexed_expands {s : Sequencer} (h : s.Template) {frame : List UInt8}
    {hdr : Header} {blocks : List Triple} {memo : Option FrameMemo} (hi : IndexOf frame hdr blocks)
    (hm : Memoized frame blocks memo) (wantsSpans : Bool) (feed : FeedId) (nowNs : ℕ) :
    Expands (s.ingestIndexed wantsSpans frame feed nowNs blocks memo) (s.ingest frame feed nowNs) := by
  have hcount : (s.countPacket frame feed).Template := h
  unfold ingestIndexed ingest
  generalize s.countPacket frame feed = t at hcount
  have hlen := (parseHeader_ok hi.parsed).1
  dsimp only
  rw [dif_neg (Nat.not_lt.mpr hlen), if_neg (Nat.not_lt.mpr hlen), parseHeader_headerOf hlen]
  have hhdr : headerOf frame hlen = hdr :=
    Except.ok.inj ((parseHeader_headerOf hlen).symm.trans hi.parsed)
  dsimp only
  split
  · exact Expands.silent _
  have hdispatch : Expands (if t.SessMatch frame then (t, []) else
      t.dispatchSession (headerOf frame hlen).session)
      (t.dispatchSession (headerOf frame hlen).session) := by
    split
    · rename_i hmatch
      rw [hmatch.dispatch hcount hlen]
      exact Expands.silent t
    · exact t.dispatchSession_expands _
  apply hdispatch.andThen
  rw [hhdr]
  exact indexedKind_expands _ hi hm wantsSpans feed nowNs

/-- The router does what the classic path does, with or without an index. -/
theorem ingestAuto_expands {s : Sequencer} (h : s.Template) {frame : List UInt8}
    {blocks : List Triple} {memo : Option FrameMemo} (hi : Indexed frame blocks)
    (hm : Memoized frame blocks memo) (wantsSpans : Bool) (feed : FeedId) (nowNs : ℕ) :
    Expands (s.ingestAuto wantsSpans frame feed nowNs blocks memo) (s.ingest frame feed nowNs) := by
  unfold ingestAuto
  split
  · exact s.ingest_expands frame feed nowNs
  · rename_i hne
    obtain ⟨hdr, hidx⟩ := hi.resolve_left hne
    exact ingestIndexed_expands h hidx hm wantsSpans feed nowNs

end Sequencer

end HftProj.Arbitrator
