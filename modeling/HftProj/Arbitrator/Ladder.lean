import HftProj.Arbitrator.Batch

/-!
# The vector ladder

The slice scan with a fast path for groups of 8 and 16 entries. A kernel decides from
first numbers and lengths alone that a group alternates between entries at the watermark
and their pure duplicates; the publisher's eligibility bytes answer for sessions, memos
and feeds. A verified group is applied wholesale, in the state the scalar ladder would
have reached. A second emitter packs each span into one word.
-/

namespace HftProj.Arbitrator

open HftProj.Lib HftProj.Protocol HftProj.Protocol.Moldudp64 HftProj.Protocol.Packet

/-! ## Kernels and eligibility -/

/-- A group check over eight first numbers and eight lengths. -/
abbrev SoaLadder8 := List ℕ → List ℕ → ℕ → Bool

/-- The scalar reference of the kernels: anchor, wrap guard, equal pairs, shorter
duplicates, chained even entries. -/
def ladder8Scalar (firsts ns : List ℕ) (w : ℕ) : Bool :=
  let f (i : ℕ) := firsts.getD i 0
  let n (i : ℕ) := ns.getD i 0
  let sum := wrappingAdd (wrappingAdd (wrappingAdd (n 0) (n 2)) (n 4)) (n 6)
  f 0 == w && !decide (f 0 > 2 ^ 64 - 1 - sum) && (List.range 4).all fun i =>
    f (2 * i + 1) == f (2 * i) && decide (n (2 * i + 1) ≤ n (2 * i)) &&
      (!decide (i < 3) || f (2 * i + 2) == wrappingAdd (f (2 * i)) (n (2 * i)))

/-- A kernel that decides the relations of the scalar reference. -/
def SoaLadder8.Exact (ladder8 : SoaLadder8) : Prop :=
  ∀ firsts ns w, firsts.length = 8 → ns.length = 8 →
    ladder8 firsts ns w = ladder8Scalar firsts ns w

/-- The steady-ok bit of an eligibility byte. -/
def FRAME_ELIG_OK : UInt8 := 0x80

def eligFeed (elig : UInt8) : UInt8 := elig &&& 3

/-- The eligibility byte is that of its entry, for the one session baked into the slice. -/
structure FrameEntry.Eligible (bakedLo bakedHi : ℕ) (e : FrameEntry) : Prop where
  ok : e.elig &&& FRAME_ELIG_OK ≠ 0 ↔ e.blocks ≠ [] ∧
    e.memo.any (fun m => m.validCount == e.blocks.length) = true ∧
    e.sessLo = bakedLo ∧ e.sessHi = bakedHi
  feed : eligFeed e.elig = e.feed &&& 3

/-! ## The packed emitter -/

/-- One word for each span, with the origin of the offsets and the batch's first number
and message count. -/
structure PackedBuf where
  words : List ℕ := []
  base : ℕ := 0
  first0 : ℕ := 0
  total : ℕ := 0
  deriving DecidableEq

/-- `off | len << 32 | count << 48` in 64 bits. -/
def packWord (off len count : ℕ) : ℕ :=
  (off ||| (len <<< 32) % 2 ^ 64) ||| (count <<< 48) % 2 ^ 64

def packedEmitter : SpanEmit PackedBuf where
  new := {}
  push em firstSeq count addr body _ :=
    let em := if em.words.length = 0 then { em with base := addr, first0 := firstSeq } else em
    { em with
      words := em.words ++ [packWord (wrappingSub addr em.base) body.length count]
      total := em.total + count }
  isFull em := em.words.length == STEADY_RECS
  flush em proof :=
    if em.words.length ≠ 0 then
      ({ em with words := [], total := 0 },
        [.spanBatchPacked proof em.first0 em.total em.base em.words])
    else (em, [])

/-! ## Groups -/

/-- The even entries of a group, each with the odd one behind it. -/
@[grind =]
def pairUp : List FrameEntry → List (FrameEntry × FrameEntry)
  | a :: b :: entries => (a, b) :: pairUp entries
  | _ => []

/-- Σ of the block counts of the even entries. -/
def sumEven (pairs : List (FrameEntry × FrameEntry)) : ℕ :=
  (pairs.map fun p => p.1.blocks.length).sum

def sumOdd (pairs : List (FrameEntry × FrameEntry)) : ℕ :=
  (pairs.map fun p => p.2.blocks.length).sum

section Ladder

variable {ε : Type} (E : SpanEmit ε) (proof : LiveFeedProof) (wantsSpans : Bool)
  (sessLo sessHi : ℕ)

/-- The session gate on the first entry and the eligibility bytes of all: the steady-ok
bit, one feed for the even entries and one for the odd ones. -/
def groupEligible (pairs : List (FrameEntry × FrameEntry)) : Bool :=
  match pairs with
  | [] => false
  | (e0, e1) :: _ =>
      e0.sessLo == sessLo && e0.sessHi == sessHi && e0.elig &&& FRAME_ELIG_OK != 0 &&
        pairs.all fun p =>
          p.1.elig &&& FRAME_ELIG_OK != 0 && eligFeed p.1.elig == eligFeed e0.elig &&
            (p.2.elig &&& FRAME_ELIG_OK != 0 && eligFeed p.2.elig == eligFeed e1.elig)

/-- Apply a verified group: the counters of all its entries at once, the emissions of the
even ones, and the watermark behind the last of them. -/
def applyGroup (pairs : List (FrameEntry × FrameEntry)) (acc : Scan ε) : Scan ε :=
  match pairs with
  | [] => acc
  | (e0, e1) :: _ =>
      let f0 := eligFeed e0.elig
      let f1 := eligFeed e1.elig
      let counted : Scan ε := { acc with
        pk := bump (bump acc.pk f0 pairs.length) f1 pairs.length
        byt := bump (bump acc.byt f0 (pairs.map fun p => p.1.bytes.length).sum) f1
          (pairs.map fun p => p.2.bytes.length).sum
        dup := bump acc.dup f1 pairs.length
        dupMsgs := acc.dupMsgs + sumOdd pairs
        emitted := acc.emitted + sumEven pairs }
      let emitted := pairs.foldl (fun acc p => acc.emit E proof wantsSpans p.1) counted
      { emitted with w := wrappingAdd acc.w (sumEven pairs) }

/-- The 8-entry group. -/
def ladderGroupApply (ladder8 : SoaLadder8) (entries : List FrameEntry) (acc : Scan ε) :
    Option (Scan ε) :=
  let group := entries.take 8
  let firsts := group.map (·.firstSeq)
  let ns := group.map (·.blocks.length)
  if ladder8 firsts ns acc.w ∧ groupEligible sessLo sessHi (pairUp group) then
    some (applyGroup E proof wantsSpans (pairUp group) acc)
  else none

/-- The 16-entry group: the second kernel is anchored behind the first one's advance. -/
def ladderGroup16Apply (ladder8 : SoaLadder8) (entries : List FrameEntry) (acc : Scan ε) :
    Option (Scan ε) :=
  let groupA := entries.take 8
  let groupB := (entries.drop 8).take 8
  let sumA := sumEven (pairUp groupA)
  if ladder8 (groupA.map (·.firstSeq)) (groupA.map (·.blocks.length)) acc.w ∧
      ladder8 (groupB.map (·.firstSeq)) (groupB.map (·.blocks.length))
        (wrappingAdd acc.w sumA) ∧
      groupEligible sessLo sessHi (pairUp (entries.take 16)) then
    some (applyGroup E proof wantsSpans (pairUp (entries.take 16)) acc)
  else none

/-- The scan: sixteen entries, else eight, else one. Every iteration consumes an entry. -/
def scanLadder (ladder : Option SoaLadder8) :
    ℕ → List FrameEntry → Scan ε → Scan ε × Option (FrameEntry × List FrameEntry)
  | 0, _, acc => (acc, none)
  | fuel + 1, entries, acc =>
      let group16 := ladder.bind fun ladder8 =>
        if 16 ≤ entries.length then
          ladderGroup16Apply E proof wantsSpans sessLo sessHi ladder8 entries acc
        else none
      let group8 := ladder.bind fun ladder8 =>
        if 8 ≤ entries.length then
          ladderGroupApply E proof wantsSpans sessLo sessHi ladder8 entries acc
        else none
      match group16, group8, entries with
      | some acc, _, entries =>
          scanLadder ladder fuel (entries.drop 16) { acc with progressed := true }
      | none, some acc, entries =>
          scanLadder ladder fuel (entries.drop 8) { acc with progressed := true }
      | none, none, [] => (acc, none)
      | none, none, entry :: entries =>
          let r := steadyStep E proof wantsSpans sessLo sessHi entry acc
          match r.1 with
          | .cold => (r.2, some (entry, entries))
          | .advanced => scanLadder ladder fuel entries { r.2 with progressed := true }
          | .dupSkipped => scanLadder ladder fuel entries r.2

end Ladder

namespace Sequencer

/-- The slice scan with the group fast paths. -/
def steadyScanLadder {ε : Type} (E : SpanEmit ε) (wantsSpans : Bool)
    (ladder : Option SoaLadder8) (s : Sequencer) (entries : List FrameEntry) : ScanResult :=
  Scan.finish E ⟨s.gen⟩ s.counters
    (scanLadder E ⟨s.gen⟩ wantsSpans s.sessionLo s.sessionHi ladder entries.length entries
      { w := s.w, em := E.new })

/-- Batch ingest with the vector ladder; a sink that wants packed spans gets the packed
emitter. -/
def ingestEntriesLadder (s : Sequencer) (wantsSpans wantsPackedSpans : Bool)
    (entries : List FrameEntry) (nowNs : ℕ) (ladder : Option SoaLadder8) :
    Traced Sequencer BatchCall :=
  let packed := wantsSpans && wantsPackedSpans
  let scan := if packed then steadyScanLadder packedEmitter wantsSpans ladder
    else steadyScanLadder recEmitter wantsSpans ladder
  scanLoop scan wantsSpans nowNs (entries.length + 1) s entries

end Sequencer

/-! ## Groups as pairs -/

theorem pairUp_append (xs ys : List FrameEntry) (h : xs.length % 2 = 0) :
    pairUp (xs ++ ys) = pairUp xs ++ pairUp ys := by
  induction xs using pairUp.induct with
  | case1 a b xs ih =>
      have hx : xs.length % 2 = 0 := by
        rw [List.length_cons, List.length_cons] at h
        omega
      exact congrArg ((a, b) :: ·) (ih hx)
  | case2 xs hne =>
      cases xs with
      | nil => rfl
      | cons a xs =>
          cases xs with
          | nil => simp at h
          | cons b xs => exact absurd rfl (hne a b xs)

/-- A group of even length is its pairs in a row. -/
theorem flatten_pairUp (xs : List FrameEntry) (h : xs.length % 2 = 0) :
    (pairUp xs).flatMap (fun p => [p.1, p.2]) = xs := by
  induction xs using pairUp.induct with
  | case1 a b xs ih =>
      have hx : xs.length % 2 = 0 := by
        rw [List.length_cons, List.length_cons] at h
        omega
      exact congrArg (fun l => a :: b :: l) (ih hx)
  | case2 xs hne =>
      cases xs with
      | nil => rfl
      | cons a xs =>
          cases xs with
          | nil => simp at h
          | cons b xs => exact absurd rfl (hne a b xs)

theorem mem_of_mem_pairUp {xs : List FrameEntry} {p : FrameEntry × FrameEntry}
    (h : p ∈ pairUp xs) : p.1 ∈ xs ∧ p.2 ∈ xs := by
  induction xs using pairUp.induct with
  | case1 a b xs ih =>
      rcases List.mem_cons.mp h with rfl | h
      · exact ⟨by simp, by simp⟩
      · exact ⟨List.mem_cons_of_mem _ (List.mem_cons_of_mem _ (ih h).1),
          List.mem_cons_of_mem _ (List.mem_cons_of_mem _ (ih h).2)⟩
  | case2 xs hne =>
      unfold pairUp at h
      split at h
      · exact absurd rfl (hne _ _ _)
      · cases h

/-- From watermark `w` on, every even entry starts where the one before it ended and every
odd entry repeats numbers of its even one. -/
@[grind =]
def Aligned : ℕ → List (FrameEntry × FrameEntry) → Prop
  | _, [] => True
  | w, p :: pairs =>
      p.1.firstSeq = w ∧ p.2.firstSeq = w ∧ p.2.blocks.length ≤ p.1.blocks.length ∧
        Aligned (w + p.1.blocks.length) pairs

theorem aligned_append (w : ℕ) (xs ys : List (FrameEntry × FrameEntry)) :
    Aligned w (xs ++ ys) ↔ Aligned w xs ∧ Aligned (w + sumEven xs) ys := by
  induction xs generalizing w with
  | nil => simp [Aligned, sumEven]
  | cons p xs ih =>
      have hsum : w + sumEven (p :: xs) = w + p.1.blocks.length + sumEven xs := by
        simp only [sumEven, List.map_cons, List.sum_cons, Nat.add_assoc]
      rw [List.cons_append, Aligned, ih, Aligned, hsum, and_assoc, and_assoc, and_assoc]

theorem sumEven_append (xs ys : List (FrameEntry × FrameEntry)) :
    sumEven (xs ++ ys) = sumEven xs + sumEven ys := by
  rw [sumEven, List.map_append, List.sum_append]
  rfl

/-- A block count is a 16-bit number. -/
theorem FrameEntry.Published.length_lt {e : FrameEntry} (h : e.Published) :
    e.blocks.length < 2 ^ 16 := by
  rcases h.indexed with h0 | ⟨hdr, hi⟩
  · rw [h0]
    decide
  · rw [hi.length]
    exact (parseHeader_bounds hi.parsed).2

/-- The relations of the scalar reference, for eight entries of 16-bit lengths. -/
theorem aligned_of_ladder8 {group : List FrameEntry} {w : ℕ} (hlen : group.length = 8)
    (hp : ∀ e ∈ group, e.Published)
    (h : ladder8Scalar (group.map (·.firstSeq)) (group.map (·.blocks.length)) w = true) :
    Aligned w (pairUp group) ∧ w + sumEven (pairUp group) < 2 ^ 64 := by
  match group, hlen, hp, h with
  | [e0, e1, e2, e3, e4, e5, e6, e7], _, hp, h =>
      have h0 := (hp e0 (by simp)).length_lt
      have h2 := (hp e2 (by simp)).length_lt
      have h4 := (hp e4 (by simp)).length_lt
      have h6 := (hp e6 (by simp)).length_lt
      have hsum : wrappingAdd (wrappingAdd (wrappingAdd e0.blocks.length e2.blocks.length)
          e4.blocks.length) e6.blocks.length =
          e0.blocks.length + e2.blocks.length + e4.blocks.length + e6.blocks.length := by
        rw [wrappingAdd_of_lt (show e0.blocks.length + e2.blocks.length < 2 ^ 64 by omega),
          wrappingAdd_of_lt (show e0.blocks.length + e2.blocks.length + e4.blocks.length < 2 ^ 64
            by omega), wrappingAdd_of_lt (by omega)]
      simp only [ladder8Scalar, List.map_cons, List.map_nil, List.getD_cons_zero,
        List.getD_cons_succ, hsum] at h
      simp [List.range_succ] at h
      simp only [pairUp, Aligned, sumEven, List.map_cons, List.map_nil, List.sum_cons, List.sum_nil]
      obtain ⟨⟨a, guard⟩, ⟨⟨b₁, b₂⟩, b₃⟩, ⟨⟨c₁, c₂⟩, c₃⟩, ⟨⟨d₁, d₂⟩, d₃⟩, f₁, f₂⟩ := h
      have hend : e0.firstSeq + (e0.blocks.length + e2.blocks.length + e4.blocks.length +
          e6.blocks.length) < 2 ^ 64 := by
        clear b₁ b₂ b₃ c₁ c₂ c₃ d₁ d₂ d₃ f₁ f₂ hsum
        omega
      clear guard
      rw [wrappingAdd_of_lt (by omega)] at b₃
      rw [wrappingAdd_of_lt (by omega)] at c₃
      rw [wrappingAdd_of_lt (by omega)] at d₃
      clear hsum
      refine ⟨⟨a, by omega, b₂, by omega, by omega, c₂, by omega, by omega, d₂, by omega, by omega,
        f₂, trivial⟩, by omega⟩

/-! ## Counters of a group -/

theorem bump_add (a : ℕ × ℕ) (feed : FeedId) (m n : ℕ) :
    bump (bump a feed m) feed n = bump a feed (m + n) := by
  unfold bump
  split <;> simp [Nat.add_assoc]

theorem bump_comm (a : ℕ × ℕ) (feed feed' : FeedId) (m n : ℕ) :
    bump (bump a feed m) feed' n = bump (bump a feed' n) feed m := by
  unfold bump
  split_ifs <;> simp [Nat.add_right_comm]

theorem bump_congr {feed feed' : FeedId} (h : feed &&& 1 = feed' &&& 1) (a : ℕ × ℕ) (n : ℕ) :
    bump a feed n = bump a feed' n := by
  unfold bump
  rw [h]

/-- Two feeds, twice: the counts of each can be added first. -/
theorem bump_pair (a : ℕ × ℕ) (feed feed' : FeedId) (m n m' n' : ℕ) :
    bump (bump (bump (bump a feed m) feed' n) feed m') feed' n' =
      bump (bump a feed (m + m')) feed' (n + n') := by
  rw [bump_comm (bump a feed m) feed' feed n m', bump_add, bump_add]

section Pairs

variable {ε : Type} {E : SpanEmit ε} {proof : LiveFeedProof} {wantsSpans : Bool}

/-- An entry at the watermark and its pure duplicate, one after the other. -/
def pairApplied (E : SpanEmit ε) (proof : LiveFeedProof) (wantsSpans : Bool) (acc : Scan ε)
    (p : FrameEntry × FrameEntry) : Scan ε :=
  let counted : Scan ε := { acc with
    pk := bump (bump acc.pk p.1.feed 1) p.2.feed 1
    byt := bump (bump acc.byt p.1.feed p.1.bytes.length) p.2.feed p.2.bytes.length
    dup := bump acc.dup p.2.feed 1
    dupMsgs := acc.dupMsgs + p.2.blocks.length
    emitted := acc.emitted + p.1.blocks.length }
  { counted.emit E proof wantsSpans p.1 with
    w := acc.w + p.1.blocks.length
    progressed := true }

/-- The emission of an entry sees and moves the emitter and the calls only. -/
def emitOut (E : SpanEmit ε) (proof : LiveFeedProof) (wantsSpans : Bool)
    (out : ε × List BatchCall) (e : FrameEntry) : ε × List BatchCall :=
  let r := ({ w := 0, em := out.1, calls := out.2 } : Scan ε).emit E proof wantsSpans e
  (r.em, r.calls)

theorem emit_eq_emitOut (acc : Scan ε) (e : FrameEntry) :
    acc.emit E proof wantsSpans e = { acc with
      em := (emitOut E proof wantsSpans (acc.em, acc.calls) e).1
      calls := (emitOut E proof wantsSpans (acc.em, acc.calls) e).2 } := by
  unfold emitOut Scan.emit Scan.pushSpan Scan.flush
  dsimp only
  split
  · split <;> rfl
  · rfl

theorem scanEntries_advanced {sessLo sessHi : ℕ} {acc acc' : Scan ε} {e : FrameEntry}
    {rest : List FrameEntry}
    (h : steadyStep E proof wantsSpans sessLo sessHi e acc = (.advanced, acc')) :
    scanEntries E proof wantsSpans sessLo sessHi (e :: rest) acc =
      scanEntries E proof wantsSpans sessLo sessHi rest { acc' with progressed := true } := by
  rw [scanEntries, h]

theorem scanEntries_skipped {sessLo sessHi : ℕ} {acc acc' : Scan ε} {e : FrameEntry}
    {rest : List FrameEntry}
    (h : steadyStep E proof wantsSpans sessLo sessHi e acc = (.dupSkipped, acc')) :
    scanEntries E proof wantsSpans sessLo sessHi (e :: rest) acc =
      scanEntries E proof wantsSpans sessLo sessHi rest acc' := by
  rw [scanEntries, h]

/-- The scalar ladder over a pair. -/
theorem scanEntries_pair {sessLo sessHi : ℕ} {acc : Scan ε} {a b : FrameEntry}
    {rest : List FrameEntry} (ha : a.firstSeq = acc.w) (hb : b.firstSeq = acc.w)
    (hle : b.blocks.length ≤ a.blocks.length) (hpos : 0 < b.blocks.length)
    (hlim : acc.w + a.blocks.length < 2 ^ 64)
    (hall : a.memo.any (fun m => m.validCount == a.blocks.length) = true)
    (hsa : a.sessLo = sessLo ∧ a.sessHi = sessHi) (hsb : b.sessLo = sessLo ∧ b.sessHi = sessHi) :
    scanEntries E proof wantsSpans sessLo sessHi (a :: b :: rest) acc =
      scanEntries E proof wantsSpans sessLo sessHi rest
        (pairApplied E proof wantsSpans acc (a, b)) := by
  have hsess : ∀ e : FrameEntry, e.sessLo = sessLo ∧ e.sessHi = sessHi →
      ¬(e.sessLo ≠ sessLo ∨ e.sessHi ≠ sessHi) := by
    rintro e ⟨h₁, h₂⟩ (h | h)
    · exact h h₁
    · exact h h₂
  have hlastA : wrappingSub (wrappingAdd a.firstSeq a.blocks.length) 1 =
      acc.w + (a.blocks.length - 1) := by
    rw [ha, wrappingSub_last (by omega) (by omega)]
  have hlastB : wrappingSub (wrappingAdd b.firstSeq b.blocks.length) 1 =
      acc.w + (b.blocks.length - 1) := by
    rw [hb, wrappingSub_last hpos (by omega)]
  have hstepA : steadyStep E proof wantsSpans sessLo sessHi a acc =
      (.advanced, { ({ acc with
          pk := bump acc.pk a.feed 1
          byt := bump acc.byt a.feed a.bytes.length } : Scan ε).emit E proof wantsSpans a with
        emitted := acc.emitted + a.blocks.length, w := acc.w + a.blocks.length }) := by
    unfold steadyStep
    dsimp only
    rw [if_neg (by omega), if_neg (hsess a hsa), hlastA, if_neg (by omega),
      if_neg (not_not.mpr ha), if_neg (by rw [hall]; decide), wrappingAdd_last (by omega),
      wrappingAdd_of_lt hlim, emit_eq_emitOut]
  have hstepB : ∀ acc' : Scan ε, acc'.w = acc.w + a.blocks.length →
      steadyStep E proof wantsSpans sessLo sessHi b acc' =
        (.dupSkipped, { acc' with
          pk := bump acc'.pk b.feed 1
          byt := bump acc'.byt b.feed b.bytes.length
          dup := bump acc'.dup b.feed 1
          dupMsgs := acc'.dupMsgs + b.blocks.length }) := by
    intro acc' hw
    unfold steadyStep
    dsimp only
    rw [if_neg (by omega), if_neg (hsess b hsb), hlastB, if_pos (by omega)]
  rw [scanEntries_advanced hstepA, scanEntries_skipped (hstepB _ rfl)]
  simp only [pairApplied, emit_eq_emitOut]

/-- What the group checks prove of a pair. -/
structure PairOk (sessLo sessHi : ℕ) (feed0 feed1 : FeedId) (p : FrameEntry × FrameEntry) :
    Prop where
  nonempty : 0 < p.2.blocks.length
  valid : p.1.memo.any (fun m => m.validCount == p.1.blocks.length) = true
  session : p.1.sessLo = sessLo ∧ p.1.sessHi = sessHi
  session' : p.2.sessLo = sessLo ∧ p.2.sessHi = sessHi
  feed : p.1.feed &&& 1 = feed0 &&& 1
  feed' : p.2.feed &&& 1 = feed1 &&& 1

/-- The scalar ladder over aligned pairs. -/
theorem scanEntries_pairs {sessLo sessHi : ℕ} {feed0 feed1 : FeedId}
    {pairs : List (FrameEntry × FrameEntry)} {acc : Scan ε} {rest : List FrameEntry}
    (hal : Aligned acc.w pairs) (hlim : acc.w + sumEven pairs < 2 ^ 64)
    (hok : ∀ p ∈ pairs, PairOk sessLo sessHi feed0 feed1 p) :
    scanEntries E proof wantsSpans sessLo sessHi
        (pairs.flatMap (fun p => [p.1, p.2]) ++ rest) acc =
      scanEntries E proof wantsSpans sessLo sessHi rest
        (pairs.foldl (pairApplied E proof wantsSpans) acc) := by
  induction pairs generalizing acc with
  | nil => rfl
  | cons p pairs ih =>
      obtain ⟨h₁, h₂, h₃, h₄⟩ := hal
      have hp := hok p List.mem_cons_self
      rw [sumEven, List.map_cons, List.sum_cons] at hlim
      rw [List.flatMap_cons, List.append_assoc]
      refine (scanEntries_pair h₁ h₂ h₃ hp.nonempty (by omega) hp.valid hp.session
        hp.session').trans ?_
      have hrest : acc.w + p.1.blocks.length + sumEven pairs < 2 ^ 64 := by
        rw [sumEven]
        omega
      exact ih h₄ hrest fun q hq => hok q (List.mem_cons_of_mem p hq)

/-- The pairs one after the other leave what the group leaves at once. -/
theorem foldl_pairApplied {sessLo sessHi : ℕ} {feed0 feed1 : FeedId}
    {pairs : List (FrameEntry × FrameEntry)} (acc : Scan ε) (hne : pairs ≠ [])
    (hok : ∀ p ∈ pairs, PairOk sessLo sessHi feed0 feed1 p) :
    pairs.foldl (pairApplied E proof wantsSpans) acc =
      let out := (pairs.map Prod.fst).foldl (emitOut E proof wantsSpans) (acc.em, acc.calls)
      { acc with
        w := acc.w + sumEven pairs
        pk := bump (bump acc.pk feed0 pairs.length) feed1 pairs.length
        byt := bump (bump acc.byt feed0 (pairs.map fun p => p.1.bytes.length).sum) feed1
          (pairs.map fun p => p.2.bytes.length).sum
        dup := bump acc.dup feed1 pairs.length
        dupMsgs := acc.dupMsgs + sumOdd pairs
        emitted := acc.emitted + sumEven pairs
        progressed := true
        em := out.1
        calls := out.2 } := by
  induction pairs generalizing acc with
  | nil => exact absurd rfl hne
  | cons p pairs ih =>
      have hp := hok p List.mem_cons_self
      have hfirst : pairApplied E proof wantsSpans acc p = { acc with
          w := acc.w + p.1.blocks.length
          pk := bump (bump acc.pk feed0 1) feed1 1
          byt := bump (bump acc.byt feed0 p.1.bytes.length) feed1 p.2.bytes.length
          dup := bump acc.dup feed1 1
          dupMsgs := acc.dupMsgs + p.2.blocks.length
          emitted := acc.emitted + p.1.blocks.length
          progressed := true
          em := (emitOut E proof wantsSpans (acc.em, acc.calls) p.1).1
          calls := (emitOut E proof wantsSpans (acc.em, acc.calls) p.1).2 } := by
        rw [pairApplied, emit_eq_emitOut]
        simp only [bump_congr hp.feed, bump_congr hp.feed']
      rw [List.foldl_cons, hfirst]
      by_cases hnil : pairs = []
      · subst hnil
        simp [sumEven, sumOdd]
      · rw [ih _ hnil fun q hq => hok q (List.mem_cons_of_mem p hq)]
        simp only [bump_pair, bump_add, sumEven, sumOdd, List.map_cons, List.sum_cons,
          List.length_cons, List.foldl_cons, Nat.add_assoc, Nat.add_comm 1 pairs.length]

theorem foldl_emit (pairs : List (FrameEntry × FrameEntry)) (acc : Scan ε) :
    pairs.foldl (fun acc p => acc.emit E proof wantsSpans p.1) acc =
      let out := (pairs.map Prod.fst).foldl (emitOut E proof wantsSpans) (acc.em, acc.calls)
      { acc with em := out.1, calls := out.2 } := by
  induction pairs generalizing acc with
  | nil => rfl
  | cons p pairs ih => rw [List.foldl_cons, ih, emit_eq_emitOut]; rfl

/-- The eligibility bytes of an eligible group answer for each of its pairs. -/
theorem pairOk_of_eligible {sessLo sessHi bakedLo bakedHi : ℕ} {e0 e1 : FrameEntry}
    {pairs : List (FrameEntry × FrameEntry)}
    (helig : ∀ p ∈ (e0, e1) :: pairs, p.1.Eligible bakedLo bakedHi ∧ p.2.Eligible bakedLo bakedHi)
    (h : groupEligible sessLo sessHi ((e0, e1) :: pairs) = true) :
    ∀ p ∈ (e0, e1) :: pairs, PairOk sessLo sessHi (eligFeed e0.elig) (eligFeed e1.elig) p := by
  simp only [groupEligible, Bool.and_eq_true, beq_iff_eq, bne_iff_ne, ne_eq,
    List.all_eq_true] at h
  obtain ⟨⟨⟨hlo, hhi⟩, hok⟩, hall⟩ := h
  obtain ⟨-, -, hlo', hhi'⟩ := (helig _ List.mem_cons_self).1.ok.mp hok
  have hlow : ∀ x : UInt8, x &&& 3 &&& 1 = x &&& 1 := by
    intro x
    rw [UInt8.and_assoc]
    rfl
  intro p hp
  obtain ⟨⟨ha, hfa⟩, hb, hfb⟩ := hall p hp
  obtain ⟨hea, heb⟩ := helig p hp
  obtain ⟨-, hvalid, hsa, hsa'⟩ := hea.ok.mp ha
  obtain ⟨hne, -, hsb, hsb'⟩ := heb.ok.mp hb
  refine ⟨List.length_pos_iff.mpr hne, hvalid, ⟨?_, ?_⟩, ⟨?_, ?_⟩, ?_, ?_⟩
  · rw [hsa, ← hlo', hlo]
  · rw [hsa', ← hhi', hhi]
  · rw [hsb, ← hlo', hlo]
  · rw [hsb', ← hhi', hhi]
  · rw [← hfa, hea.feed, hlow]
  · rw [← hfb, heb.feed, hlow]

/-- A verified group leaves what the scalar ladder leaves over its entries. -/
theorem scanEntries_group {sessLo sessHi bakedLo bakedHi : ℕ} {group rest : List FrameEntry}
    {acc : Scan ε} (hlen : group.length % 2 = 0)
    (helig : ∀ e ∈ group, e.Eligible bakedLo bakedHi)
    (hal : Aligned acc.w (pairUp group)) (hlim : acc.w + sumEven (pairUp group) < 2 ^ 64)
    (h : groupEligible sessLo sessHi (pairUp group) = true) :
    scanEntries E proof wantsSpans sessLo sessHi (group ++ rest) acc =
      scanEntries E proof wantsSpans sessLo sessHi rest
        { applyGroup E proof wantsSpans (pairUp group) acc with progressed := true } := by
  have hflat := flatten_pairUp group hlen
  have helig' : ∀ p ∈ pairUp group, p.1.Eligible bakedLo bakedHi ∧ p.2.Eligible bakedLo bakedHi :=
    fun p hp => ⟨helig _ (mem_of_mem_pairUp hp).1, helig _ (mem_of_mem_pairUp hp).2⟩
  generalize pairUp group = pairs at *
  subst hflat
  cases pairs with
  | nil => cases h
  | cons p pairs =>
      obtain ⟨e0, e1⟩ := p
      have hok := pairOk_of_eligible helig' h
      rw [scanEntries_pairs hal hlim hok, foldl_pairApplied acc (List.cons_ne_nil _ _) hok]
      unfold applyGroup
      dsimp only
      rw [foldl_emit, wrappingAdd_of_lt hlim]

/-- An exact kernel verifies only groups that the scalar ladder treats alike. -/
theorem scanEntries_group8 {sessLo sessHi bakedLo bakedHi : ℕ} {ladder8 : SoaLadder8}
    (hk : ladder8.Exact) {entries : List FrameEntry} {acc acc' : Scan ε}
    (hp : ∀ e ∈ entries, e.Published) (helig : ∀ e ∈ entries, e.Eligible bakedLo bakedHi)
    (hlen : 8 ≤ entries.length)
    (h : ladderGroupApply E proof wantsSpans sessLo sessHi ladder8 entries acc = some acc') :
    scanEntries E proof wantsSpans sessLo sessHi entries acc =
      scanEntries E proof wantsSpans sessLo sessHi (entries.drop 8)
        { acc' with progressed := true } := by
  have htake : (entries.take 8).length = 8 := List.length_take_of_le hlen
  unfold ladderGroupApply at h
  dsimp only at h
  split at h
  · rename_i hgroup
    cases h
    obtain ⟨hladder, hgate⟩ := hgroup
    rw [hk _ _ _ (by rw [List.length_map, htake]) (by rw [List.length_map, htake])] at hladder
    obtain ⟨hal, hlim⟩ := aligned_of_ladder8 htake (fun e he => hp e (List.mem_of_mem_take he))
      hladder
    have hrun : scanEntries E proof wantsSpans sessLo sessHi
        (entries.take 8 ++ entries.drop 8) acc = _ := scanEntries_group (by rw [htake])
      (fun e he => helig e (List.mem_of_mem_take he)) hal hlim hgate
    rwa [List.take_append_drop] at hrun
  · cases h

theorem scanEntries_group16 {sessLo sessHi bakedLo bakedHi : ℕ} {ladder8 : SoaLadder8}
    (hk : ladder8.Exact) {entries : List FrameEntry} {acc acc' : Scan ε}
    (hp : ∀ e ∈ entries, e.Published) (helig : ∀ e ∈ entries, e.Eligible bakedLo bakedHi)
    (hlen : 16 ≤ entries.length)
    (h : ladderGroup16Apply E proof wantsSpans sessLo sessHi ladder8 entries acc = some acc') :
    scanEntries E proof wantsSpans sessLo sessHi entries acc =
      scanEntries E proof wantsSpans sessLo sessHi (entries.drop 16)
        { acc' with progressed := true } := by
  have htakeA : (entries.take 8).length = 8 := List.length_take_of_le (by omega)
  have htakeB : ((entries.drop 8).take 8).length = 8 := by
    rw [List.length_take_of_le]
    rw [List.length_drop]
    omega
  have hsplit : entries.take 16 = entries.take 8 ++ (entries.drop 8).take 8 :=
    (List.take_add : entries.take (8 + 8) = _)
  unfold ladderGroup16Apply at h
  dsimp only at h
  split at h
  · rename_i hgroup
    cases h
    obtain ⟨hladderA, hladderB, hgate⟩ := hgroup
    rw [hk _ _ _ (by rw [List.length_map, htakeA]) (by rw [List.length_map, htakeA])] at hladderA
    rw [hk _ _ _ (by rw [List.length_map, htakeB]) (by rw [List.length_map, htakeB])] at hladderB
    obtain ⟨halA, hlimA⟩ := aligned_of_ladder8 htakeA
      (fun e he => hp e (List.mem_of_mem_take he)) hladderA
    rw [wrappingAdd_of_lt hlimA] at hladderB
    obtain ⟨halB, hlimB⟩ := aligned_of_ladder8 htakeB
      (fun e he => hp e (List.mem_of_mem_drop (List.mem_of_mem_take he))) hladderB
    have hpairs : pairUp (entries.take 16) =
        pairUp (entries.take 8) ++ pairUp ((entries.drop 8).take 8) := by
      rw [hsplit, pairUp_append _ _ (by rw [htakeA])]
    have hrun : scanEntries E proof wantsSpans sessLo sessHi
        (entries.take 16 ++ entries.drop 16) acc = _ := scanEntries_group
      (by rw [List.length_take_of_le hlen])
      (fun e he => helig e (List.mem_of_mem_take he))
      (by rw [hpairs, aligned_append]; exact ⟨halA, halB⟩)
      (by rw [hpairs, sumEven_append, ← Nat.add_assoc]; exact hlimB) hgate
    rwa [List.take_append_drop] at hrun
  · cases h

/-- The ladder scan is the scalar scan. -/
theorem scanLadder_eq {sessLo sessHi bakedLo bakedHi : ℕ} {ladder : Option SoaLadder8}
    (hk : ∀ ladder8 ∈ ladder, SoaLadder8.Exact ladder8) {fuel : ℕ} {entries : List FrameEntry}
    (acc : Scan ε) (hfuel : entries.length ≤ fuel) (hp : ∀ e ∈ entries, e.Published)
    (helig : ∀ e ∈ entries, e.Eligible bakedLo bakedHi) :
    scanLadder E proof wantsSpans sessLo sessHi ladder fuel entries acc =
      scanEntries E proof wantsSpans sessLo sessHi entries acc := by
  induction fuel generalizing entries acc with
  | zero =>
      rw [List.length_eq_zero_iff.mp (Nat.le_zero.mp hfuel)]
      rfl
  | succ fuel ih =>
      have hdrop : ∀ k, 0 < k → (entries.drop k).length ≤ fuel := by
        intro k hk
        rw [List.length_drop]
        omega
      have hrest : ∀ k acc, 0 < k → scanLadder E proof wantsSpans sessLo sessHi ladder fuel
          (entries.drop k) acc =
          scanEntries E proof wantsSpans sessLo sessHi (entries.drop k) acc := fun k acc hk =>
        ih acc (hdrop k hk) (fun e he => hp e (List.mem_of_mem_drop he))
          fun e he => helig e (List.mem_of_mem_drop he)
      unfold scanLadder
      dsimp only
      cases h16 : (ladder.bind fun ladder8 => if 16 ≤ entries.length then
          ladderGroup16Apply E proof wantsSpans sessLo sessHi ladder8 entries acc else none) with
      | some acc' =>
          obtain ⟨ladder8, hl, hgroup⟩ := Option.bind_eq_some_iff.mp h16
          split at hgroup
          · rename_i hlen
            exact (hrest 16 _ (by decide)).trans
              (scanEntries_group16 (hk _ hl) hp helig hlen hgroup).symm
          · cases hgroup
      | none =>
          cases h8 : (ladder.bind fun ladder8 => if 8 ≤ entries.length then
              ladderGroupApply E proof wantsSpans sessLo sessHi ladder8 entries acc else none) with
          | some acc' =>
              obtain ⟨ladder8, hl, hgroup⟩ := Option.bind_eq_some_iff.mp h8
              split at hgroup
              · rename_i hlen
                exact (hrest 8 _ (by decide)).trans
                  (scanEntries_group8 (hk _ hl) hp helig hlen hgroup).symm
              · cases hgroup
          | none =>
              cases entries with
              | nil => rfl
              | cons e entries =>
                  have htail : ∀ acc, scanLadder E proof wantsSpans sessLo sessHi ladder fuel
                      entries acc = scanEntries E proof wantsSpans sessLo sessHi entries acc :=
                    fun acc => hrest 1 acc Nat.one_pos
                  rw [scanEntries]
                  cases hstep : (steadyStep E proof wantsSpans sessLo sessHi e acc).1 <;>
                    simp only [htail, hstep]

end Pairs

/-! ## Packed words -/

section Packed

variable {mem : ℕ → UInt8}

/-- The fields of a word that nothing overflows. -/
theorem packWord_fields {off len count : ℕ} (ho : off < 2 ^ 32) (hl : len < 2 ^ 16)
    (hc : count < 2 ^ 16) :
    packWord off len count % 2 ^ 32 = off ∧ packWord off len count / 2 ^ 32 % 2 ^ 16 = len ∧
      packWord off len count / 2 ^ 48 = count := by
  have hlen : (len <<< 32) % 2 ^ 64 = len <<< 32 := by
    rw [Nat.shiftLeft_eq]
    omega
  have hcount : (count <<< 48) % 2 ^ 64 = count <<< 48 := by
    rw [Nat.shiftLeft_eq]
    omega
  have hlow : off + len <<< 32 < 2 ^ 48 := by
    rw [Nat.shiftLeft_eq]
    omega
  have hword : packWord off len count = off + len <<< 32 + count <<< 48 := by
    rw [packWord, hlen, hcount, Nat.or_comm off, ← Nat.shiftLeft_add_eq_or_of_lt ho,
      Nat.add_comm _ off, Nat.or_comm, ← Nat.shiftLeft_add_eq_or_of_lt hlow,
      Nat.add_comm]
  rw [hword, Nat.shiftLeft_eq, Nat.shiftLeft_eq]
  omega

/-- Memory holds the bytes of the entry at its address. -/
structure FrameEntry.Held (mem : ℕ → UInt8) (e : FrameEntry) : Prop where
  bytes : readBytes mem e.addr e.bytes.length = e.bytes
  limit : e.addr + e.bytes.length < 2 ^ 64

instance (mem : ℕ → UInt8) (e : FrameEntry) : Decidable (e.Held mem) :=
  decidable_of_iff (readBytes mem e.addr e.bytes.length = e.bytes ∧
    e.addr + e.bytes.length < 2 ^ 64) ⟨fun h => ⟨h.1, h.2⟩, fun h => ⟨h.1, h.2⟩⟩

/-- A slice whose bodies fit packed words, whichever of them comes first: addresses never
descend, all lie within 4 GiB, and each body is shorter than 64 KiB. -/
structure Packable (mem : ℕ → UInt8) (entries : List FrameEntry) : Prop where
  held : ∀ e ∈ entries, e.Held mem
  offsets : entries.Pairwise fun a b => a.addr ≤ b.addr ∧ b.addr < a.addr + 2 ^ 32
  lengths : ∀ e ∈ entries, e.bytes.length < 2 ^ 16 + (HEADER_LEN + 2)

instance (mem : ℕ → UInt8) (entries : List FrameEntry) : Decidable (Packable mem entries) :=
  decidable_of_iff ((∀ e ∈ entries, e.Held mem) ∧
    (entries.Pairwise fun a b => a.addr ≤ b.addr ∧ b.addr < a.addr + 2 ^ 32) ∧
    ∀ e ∈ entries, e.bytes.length < 2 ^ 16 + (HEADER_LEN + 2))
    ⟨fun h => ⟨h.1, h.2.1, h.2.2⟩, fun h => ⟨h.held, h.offsets, h.lengths⟩⟩

/-- The number behind the messages of packed words. -/
def wordsEnd (firstSeq : ℕ) (words : List ℕ) : ℕ :=
  words.foldl (fun w word => wrappingAdd w (word / 2 ^ 48)) firstSeq

theorem unpack_append (base firstSeq : ℕ) (words words' : List ℕ) :
    unpack mem base firstSeq (words ++ words') =
      unpack mem base firstSeq words ++ unpack mem base (wordsEnd firstSeq words) words' := by
  induction words generalizing firstSeq with
  | nil => rfl
  | cons word words ih =>
      rw [List.cons_append, unpack, unpack, ih, List.append_assoc]
      rfl

theorem readBytes_drop (addr len k : ℕ) :
    readBytes mem (addr + k) (len - k) = (readBytes mem addr len).drop k := by
  apply List.ext_getElem
  · simp [readBytes]
  · intro i h₁ h₂
    simp [readBytes, Nat.add_assoc]

/-- A word stands for the blocks of its entry. -/
theorem unpack_word {e : FrameEntry} {hdr : Header} {base : ℕ} (hi : IndexOf e.bytes hdr e.blocks)
    (hheld : e.Held mem) (hbase : base ≤ e.addr + (HEADER_LEN + 2))
    (hoff : e.addr + (HEADER_LEN + 2) < base + 2 ^ 32)
    (hlen : e.bytes.length < 2 ^ 16 + (HEADER_LEN + 2)) :
    let word := packWord (wrappingSub (e.addr + (HEADER_LEN + 2)) base)
      (slice e.bytes (HEADER_LEN + 2) e.bytes.length).length e.blocks.length
    unpack mem base hdr.seq [word] = headerBlocks e.bytes hdr ∧
      word / 2 ^ 48 = e.blocks.length := by
  obtain ⟨hpos, hlim, -, -⟩ := hi.bounds
  have hlong : HEADER_LEN + 2 ≤ e.bytes.length := by
    have harea := hi.area
    obtain ⟨n, hn⟩ : ∃ n, hdr.count = n + 1 := ⟨hdr.count - 1, by omega⟩
    rw [hn] at harea
    exact (Nat.le_add_right _ _).trans (splitBlocks_succ harea).1
  have hlimit := hheld.limit
  have hsub : wrappingSub (e.addr + (HEADER_LEN + 2)) base =
      e.addr + (HEADER_LEN + 2) - base :=
    wrappingSub_of_le hbase (by omega)
  have hbody : (slice e.bytes (HEADER_LEN + 2) e.bytes.length).length =
      e.bytes.length - (HEADER_LEN + 2) := slice_length (Nat.le_refl _)
  dsimp only
  rw [hsub, hbody]
  have hcount : e.blocks.length < 2 ^ 16 := by
    rw [hi.length]
    exact (parseHeader_bounds hi.parsed).2
  obtain ⟨h₁, h₂, h₃⟩ := packWord_fields
    (show e.addr + (HEADER_LEN + 2) - base < 2 ^ 32 by omega)
    (show e.bytes.length - (HEADER_LEN + 2) < 2 ^ 16 by omega) hcount
  refine ⟨?_, h₃⟩
  have harea : readBytes mem (base + (e.addr + (HEADER_LEN + 2) - base) - 2)
      (e.bytes.length - (HEADER_LEN + 2) + 2) = e.bytes.drop HEADER_LEN := by
    rw [show base + (e.addr + (HEADER_LEN + 2) - base) - 2 = e.addr + HEADER_LEN by omega,
      show e.bytes.length - (HEADER_LEN + 2) + 2 = e.bytes.length - HEADER_LEN by omega,
      readBytes_drop, hheld.bytes]
  simp only [unpack]
  rw [h₁, h₂, h₃, harea, List.append_nil, hi.length, headerBlocks_eq hlim]

/-- What the packed emitter can take: the words so far end at the watermark, and the bodies
to come lie in reach of the base. -/
structure PackedFit (mem : ℕ → UInt8) (em : PackedBuf) (w : ℕ) (es : List FrameEntry) :
    Prop where
  packable : Packable mem es
  number : em.words ≠ [] → wordsEnd em.first0 em.words = w
  reach : em.words ≠ [] → ∀ e ∈ es,
    em.base ≤ e.addr + (HEADER_LEN + 2) ∧ e.addr + (HEADER_LEN + 2) < em.base + 2 ^ 32

theorem packedEmitter_pending (em : PackedBuf) (proof : LiveFeedProof) :
    packedEmitter.pending mem em proof = deliver proof (unpack mem em.base em.first0 em.words) := by
  unfold SpanEmit.pending packedEmitter
  dsimp only
  split
  · exact List.append_nil _
  · rename_i h
    rw [List.length_eq_zero_iff.mp (not_not.mp h)]
    rfl

theorem Packable.tail {e : FrameEntry} {es : List FrameEntry} (h : Packable mem (e :: es)) :
    Packable mem es :=
  ⟨fun x hx => h.held x (List.mem_cons_of_mem e hx), (List.pairwise_cons.mp h.offsets).2,
    fun x hx => h.lengths x (List.mem_cons_of_mem e hx)⟩

theorem packedEmitter_lawful : packedEmitter.Lawful mem (PackedFit mem) where
  new := fun _ => rfl
  skip := fun _ _ _ _ h => ⟨h.packable.tail, h.number,
    fun hne x hx => h.reach hne x (List.mem_cons_of_mem _ hx)⟩
  move := fun _ _ _ _ h => ⟨h.packable.tail, fun hne => absurd rfl hne,
    fun hne => absurd rfl hne⟩
  push := by
    intro em w e es hdr h hi hw
    have hheld := h.packable.held e List.mem_cons_self
    have hlen := h.packable.lengths e List.mem_cons_self
    have hnext := (List.pairwise_cons.mp h.packable.offsets).1
    -- the buffer as the word is pushed: the first word of a batch sets base and number
    obtain ⟨base, first0, hpush, hunpack, hnumber, hlow, hhigh, hreach⟩ :
        ∃ base first0, packedEmitter.push em w e.blocks.length (e.addr + (HEADER_LEN + 2))
            (slice e.bytes (HEADER_LEN + 2) e.bytes.length) e.blocks =
              { words := em.words ++ [packWord (wrappingSub (e.addr + (HEADER_LEN + 2)) base)
                  (slice e.bytes (HEADER_LEN + 2) e.bytes.length).length e.blocks.length]
                base := base
                first0 := first0
                total := em.total + e.blocks.length } ∧
          unpack mem base first0 em.words = unpack mem em.base em.first0 em.words ∧
          wordsEnd first0 em.words = w ∧ base ≤ e.addr + (HEADER_LEN + 2) ∧
          e.addr + (HEADER_LEN + 2) < base + 2 ^ 32 ∧
          ∀ x ∈ es, base ≤ x.addr + (HEADER_LEN + 2) ∧
            x.addr + (HEADER_LEN + 2) < base + 2 ^ 32 := by
      by_cases hne : em.words = []
      · refine ⟨e.addr + (HEADER_LEN + 2), w, ?_, ?_, ?_, Nat.le_refl _, by omega, fun x hx => ?_⟩
        · simp [packedEmitter, hne]
        · rw [hne]
          rfl
        · rw [hne]
          rfl
        · have := hnext x hx
          omega
      · refine ⟨em.base, em.first0, ?_, rfl, h.number hne, (h.reach hne e List.mem_cons_self).1,
          (h.reach hne e List.mem_cons_self).2,
          fun x hx => h.reach hne x (List.mem_cons_of_mem e hx)⟩
        simp [packedEmitter, hne]
    obtain ⟨hword, hcount⟩ := unpack_word hi hheld hlow hhigh hlen
    rw [hpush]
    refine ⟨⟨h.packable.tail, fun _ => ?_, fun _ => hreach⟩, fun proof => ?_⟩
    · dsimp only
      rw [wordsEnd, List.foldl_append, List.foldl_cons, List.foldl_nil, hcount, ← wordsEnd, hnumber]
    · rw [packedEmitter_pending, packedEmitter_pending]
      dsimp only
      rw [unpack_append, hunpack, hnumber, ← hw, hword, deliver_append]
  flush := by
    intro em w es proof h
    unfold packedEmitter
    dsimp only
    split
    · exact ⟨⟨h.packable, fun hne => absurd rfl hne, fun hne => absurd rfl hne⟩, rfl⟩
    · rename_i hne
      have hnil := List.length_eq_zero_iff.mp (not_not.mp hne)
      refine ⟨h, ?_⟩
      rw [← packedEmitter, packedEmitter_pending, hnil]
      rfl

end Packed

/-! ## The ladder driver -/

namespace Sequencer

/-- The ladder scan of a slice is its scalar scan. -/
theorem steadyScanLadder_eq {ε : Type} (E : SpanEmit ε) (wantsSpans : Bool)
    {ladder : Option SoaLadder8} (hk : ∀ ladder8 ∈ ladder, SoaLadder8.Exact ladder8)
    {bakedLo bakedHi : ℕ} (s : Sequencer) {entries : List FrameEntry}
    (hp : ∀ e ∈ entries, e.Published) (helig : ∀ e ∈ entries, e.Eligible bakedLo bakedHi) :
    s.steadyScanLadder E wantsSpans ladder entries =
      Scan.finish E ⟨s.gen⟩ s.counters
        (scanEntries E ⟨s.gen⟩ wantsSpans s.sessionLo s.sessionHi entries
          { w := s.w, em := E.new }) := by
  rw [steadyScanLadder, scanLadder_eq hk _ (Nat.le_refl _) hp helig]

/-- The ladder driver over a lawful emitter does what the router does entry by entry. -/
theorem scanLoop_ladder {ε : Type} {E : SpanEmit ε} {mem : ℕ → UInt8}
    {Fit : ε → ℕ → List FrameEntry → Prop} (hE : E.Lawful mem Fit) {wantsSpans : Bool}
    {ladder : Option SoaLadder8} (hk : ∀ ladder8 ∈ ladder, SoaLadder8.Exact ladder8)
    {bakedLo bakedHi : ℕ} {s : Sequencer} {entries : List FrameEntry} (ht : s.Template)
    (hp : ∀ e ∈ entries, e.Published) (helig : ∀ e ∈ entries, e.Eligible bakedLo bakedHi)
    (hfit : ∀ w, Fit E.new w entries) (nowNs : ℕ) :
    let r := scanLoop (steadyScanLadder E wantsSpans ladder) wantsSpans nowNs
      (entries.length + 1) s entries
    r.1 = (ingestEach wantsSpans nowNs s entries).1 ∧
      expandBatch mem r.2 = expand (ingestEach wantsSpans nowNs s entries).2 := by
  have hfaithful : Faithful mem
      (fun entries => (∀ e ∈ entries, e.Eligible bakedLo bakedHi) ∧ ∀ w, Fit E.new w entries)
      wantsSpans (steadyScanLadder E wantsSpans ladder) := by
    intro s entries nowNs hs ht hp ⟨helig, hfit⟩
    rw [steadyScanLadder_eq E wantsSpans hk s hp helig]
    exact scanEntries_faithful hE wantsSpans s entries nowNs hs ht hp hfit
  have hsuffix : ∀ pre entries : List FrameEntry,
      ((∀ e ∈ pre ++ entries, e.Eligible bakedLo bakedHi) ∧ ∀ w, Fit E.new w (pre ++ entries)) →
      (∀ e ∈ entries, e.Eligible bakedLo bakedHi) ∧ ∀ w, Fit E.new w entries := by
    intro pre entries h
    refine ⟨fun e he => h.1 e (List.mem_append_right pre he), ?_⟩
    have hfit := h.2
    clear h
    induction pre with
    | nil => exact hfit
    | cons e pre ih => exact ih fun w => hE.skip _ _ _ _ (hfit w)
  exact scanLoop_eq hfaithful hsuffix nowNs (Nat.lt_succ_self _) ht hp ⟨helig, hfit⟩

/-- The ladder driver with the classic emitter. -/
theorem ingestEntriesLadder_classic (mem : ℕ → UInt8) {wantsSpans wantsPackedSpans : Bool}
    (hclassic : (wantsSpans && wantsPackedSpans) = false) {ladder : Option SoaLadder8}
    (hk : ∀ ladder8 ∈ ladder, SoaLadder8.Exact ladder8) {bakedLo bakedHi : ℕ} {s : Sequencer}
    {entries : List FrameEntry} (ht : s.Template) (hp : ∀ e ∈ entries, e.Published)
    (helig : ∀ e ∈ entries, e.Eligible bakedLo bakedHi) (nowNs : ℕ) :
    let r := s.ingestEntriesLadder wantsSpans wantsPackedSpans entries nowNs ladder
    r.1 = (ingestEach wantsSpans nowNs s entries).1 ∧
      expandBatch mem r.2 = expand (ingestEach wantsSpans nowNs s entries).2 := by
  unfold ingestEntriesLadder
  simp only [hclassic, Bool.false_eq_true, if_false]
  exact scanLoop_ladder (recEmitter_lawful mem) hk ht hp helig (fun _ => trivial) nowNs

/-- The ladder driver with either emitter. -/
theorem ingestEntriesLadder_eq {mem : ℕ → UInt8} (wantsSpans wantsPackedSpans : Bool)
    {ladder : Option SoaLadder8} (hk : ∀ ladder8 ∈ ladder, SoaLadder8.Exact ladder8)
    {bakedLo bakedHi : ℕ} {s : Sequencer} {entries : List FrameEntry} (ht : s.Template)
    (hp : ∀ e ∈ entries, e.Published) (helig : ∀ e ∈ entries, e.Eligible bakedLo bakedHi)
    (hpack : (wantsSpans && wantsPackedSpans) = true → Packable mem entries) (nowNs : ℕ) :
    let r := s.ingestEntriesLadder wantsSpans wantsPackedSpans entries nowNs ladder
    r.1 = (ingestEach wantsSpans nowNs s entries).1 ∧
      expandBatch mem r.2 = expand (ingestEach wantsSpans nowNs s entries).2 := by
  cases hpacked : wantsSpans && wantsPackedSpans with
  | false => exact ingestEntriesLadder_classic mem hpacked hk ht hp helig nowNs
  | true =>
      have hfit : ∀ w, PackedFit mem packedEmitter.new w entries := fun w =>
        ⟨hpack hpacked, fun hne => absurd rfl hne, fun hne => absurd rfl hne⟩
      unfold ingestEntriesLadder
      simp only [hpacked, if_true]
      exact scanLoop_ladder packedEmitter_lawful hk ht hp helig hfit nowNs

end Sequencer

end HftProj.Arbitrator
