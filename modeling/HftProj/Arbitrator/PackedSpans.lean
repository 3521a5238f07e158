import HftProj.Arbitrator.Ladder

/-!
# Packed spans

A scan acts on its emitter by pushing spans and by nothing else, so the spans of a run are
those it would log. The words of a packed call stand for consecutive spans; what the packed
emitter delivers is decoded to the spans that the classic one delivers for the same run.
-/

namespace HftProj.Arbitrator

open HftProj.Lib HftProj.Protocol HftProj.Protocol.Moldudp64 HftProj.Protocol.Packet

/-! ## Spans -/

/-- A span as the sink gets it: its era, first number, message count and bytes. -/
structure Span where
  gen : ℕ
  firstSeq : ℕ
  count : ℕ
  body : List UInt8
  deriving DecidableEq

/-- A span named by where its bytes lie. -/
structure Extent where
  gen : ℕ
  firstSeq : ℕ
  count : ℕ
  addr : ℕ
  len : ℕ
  deriving DecidableEq

def Extent.read (mem : ℕ → UInt8) (x : Extent) : Span :=
  ⟨x.gen, x.firstSeq, x.count, readBytes mem x.addr x.len⟩

/-- Packed words are consecutive spans; their offsets are relative to `base`. -/
@[grind =]
def extents (gen base : ℕ) : ℕ → List ℕ → List Extent
  | _, [] => []
  | firstSeq, word :: words =>
      let count := word / 2 ^ 48
      ⟨gen, firstSeq, count, base + word % 2 ^ 32, word / 2 ^ 32 % 2 ^ 16⟩ ::
        extents gen base (wrappingAdd firstSeq count) words

/-- The spans that a call delivers. -/
def BatchCall.spans (mem : ℕ → UInt8) : BatchCall → List Span
  | .call (.onSpan proof firstSeq count body _) => [⟨proof.gen, firstSeq, count, body⟩]
  | .call _ => []
  | .spanBatch proof recs => recs.map fun r => ⟨proof.gen, r.firstSeq, r.count, r.body⟩
  | .spanBatchPacked proof firstSeq _ base words =>
      (extents proof.gen base firstSeq words).map (Extent.read mem)

/-- A packed call of at least one word, whose words name bodies inside the blob
`[lo, lo + size)`; `total` is the number of its messages. -/
def BatchCall.Carried (lo size : ℕ) : BatchCall → Prop
  | .spanBatchPacked _ _ total base words =>
      words ≠ [] ∧ total = (words.map (· / 2 ^ 48)).sum ∧ lo ≤ base ∧
        ∀ word ∈ words, word < 2 ^ 64 ∧
          base + word % 2 ^ 32 + word / 2 ^ 32 % 2 ^ 16 ≤ lo + size
  | _ => True

instance (lo size : ℕ) : (c : BatchCall) → Decidable (c.Carried lo size)
  | .spanBatchPacked _ _ _ _ _ => inferInstanceAs (Decidable (_ ∧ _ ∧ _ ∧ _))
  | .call _ | .spanBatch _ _ => isTrue trivial

theorem extents_append (gen base firstSeq : ℕ) (words words' : List ℕ) :
    extents gen base firstSeq (words ++ words') =
      extents gen base firstSeq words ++ extents gen base (wordsEnd firstSeq words) words' := by
  induction words generalizing firstSeq with
  | nil => rfl
  | cons word words ih =>
      rw [List.cons_append, extents, extents, ih, List.cons_append]
      rfl

theorem wordsEnd_append (firstSeq : ℕ) (words words' : List ℕ) :
    wordsEnd firstSeq (words ++ words') = wordsEnd (wordsEnd firstSeq words) words' :=
  List.foldl_append

/-! ## The spans of a scan -/

/-- One emission: the arguments of `push`. -/
structure Push where
  firstSeq : ℕ
  count : ℕ
  addr : ℕ
  body : List UInt8
  blocks : List Triple
  deriving DecidableEq

def Push.span (proof : LiveFeedProof) (p : Push) : Span :=
  ⟨proof.gen, p.firstSeq, p.count, p.body⟩

/-- The emission of an entry. -/
def FrameEntry.push (e : FrameEntry) : Push where
  firstSeq := e.firstSeq
  count := e.blocks.length
  addr := e.addr + (HEADER_LEN + 2)
  body := slice e.bytes (HEADER_LEN + 2) e.bytes.length
  blocks := e.blocks

/-- An emitter that only logs. -/
def pushLog : SpanEmit (List Push) where
  new := []
  push log firstSeq count addr body blocks := log ++ [⟨firstSeq, count, addr, body, blocks⟩]
  isFull _ := false
  flush log _ := (log, [])

/-- The spans that the ladder scan of a slice emits. -/
def Sequencer.steadyPushes (ladder : Option SoaLadder8) (s : Sequencer)
    (entries : List FrameEntry) : List Push :=
  (scanLadder pushLog ⟨s.gen⟩ true s.sessionLo s.sessionHi ladder entries.length entries
    { w := s.w, em := pushLog.new }).1.em

section Buffer

variable {ε : Type} (E : SpanEmit ε) (proof : LiveFeedProof)

/-- The buffer and the calls made, after one more push. -/
def pushOut (out : ε × List BatchCall) (p : Push) : ε × List BatchCall :=
  let em := E.push out.1 p.firstSeq p.count p.addr p.body p.blocks
  if E.isFull em then ((E.flush em proof).1, out.2 ++ (E.flush em proof).2) else (em, out.2)

def pushAll (pushes : List Push) : ε × List BatchCall :=
  pushes.foldl (pushOut E proof) (E.new, [])

/-- A logging scan with the emitter in place of the log. -/
def Scan.fill (acc : Scan (List Push)) : Scan ε where
  w := acc.w
  pk := acc.pk
  byt := acc.byt
  dup := acc.dup
  dupMsgs := acc.dupMsgs
  emitted := acc.emitted
  progressed := acc.progressed
  em := (pushAll E proof acc.em).1
  calls := (pushAll E proof acc.em).2

variable {E proof}

theorem Scan.emit_fill (acc : Scan (List Push)) (e : FrameEntry) :
    (acc.fill E proof).emit E proof true e =
      (acc.emit pushLog proof true e).fill E proof := by
  have hall : pushAll E proof (acc.em ++ [e.push]) =
      pushOut E proof (pushAll E proof acc.em) e.push := by
    rw [pushAll, List.foldl_append]
    rfl
  have hlog : acc.emit pushLog proof true e = { acc with em := acc.em ++ [e.push] } := rfl
  rw [hlog]
  simp only [Scan.fill, hall]
  simp only [Scan.emit, Scan.pushSpan, pushOut, FrameEntry.push, if_true]
  split
  · rename_i hfull
    simp only [hfull, if_true, Scan.flush]
  · rename_i hfull
    simp only [hfull]
    rfl

theorem Scan.emitAll_fill (pairs : List (FrameEntry × FrameEntry)) (acc : Scan (List Push)) :
    pairs.foldl (fun acc p => acc.emit E proof true p.1) (acc.fill E proof) =
      (pairs.foldl (fun acc p => acc.emit pushLog proof true p.1) acc).fill E proof := by
  induction pairs generalizing acc with
  | nil => rfl
  | cons p pairs ih => rw [List.foldl_cons, List.foldl_cons, Scan.emit_fill, ih]

theorem applyGroup_fill (pairs : List (FrameEntry × FrameEntry)) (acc : Scan (List Push)) :
    applyGroup E proof true pairs (acc.fill E proof) =
      (applyGroup pushLog proof true pairs acc).fill E proof := by
  cases pairs with
  | nil => rfl
  | cons p pairs =>
      have hcounted : ∀ (pk byt dup : ℕ × ℕ) (dupMsgs emitted : ℕ),
          ({ acc.fill E proof with
            pk := pk, byt := byt, dup := dup, dupMsgs := dupMsgs, emitted := emitted } : Scan ε) =
            ({ acc with
              pk := pk, byt := byt, dup := dup, dupMsgs := dupMsgs,
              emitted := emitted } : Scan (List Push)).fill E proof := fun _ _ _ _ _ => rfl
      unfold applyGroup
      dsimp only
      rw [hcounted, Scan.emitAll_fill]
      rfl

theorem steadyStep_fill (sessLo sessHi : ℕ) (e : FrameEntry) (acc : Scan (List Push)) :
    steadyStep E proof true sessLo sessHi e (acc.fill E proof) =
      ((steadyStep pushLog proof true sessLo sessHi e acc).1,
        (steadyStep pushLog proof true sessLo sessHi e acc).2.fill E proof) := by
  have hemit : (Scan.fill E proof { acc with
        pk := bump acc.pk e.feed 1, byt := bump acc.byt e.feed e.bytes.length }).emit E proof
          true e = _ := Scan.emit_fill _ e
  unfold steadyStep
  dsimp only
  rw [show (acc.fill E proof).w = acc.w from rfl]
  split_ifs
  · rfl
  · rfl
  · rfl
  · rfl
  · rfl
  · exact congrArg (fun acc' : Scan ε => (StepOutcome.advanced, { acc' with
      emitted := acc'.emitted + e.blocks.length
      w := wrappingAdd (wrappingSub (wrappingAdd e.firstSeq e.blocks.length) 1) 1 })) hemit

theorem ladderGroupApply_fill (sessLo sessHi : ℕ) (ladder8 : SoaLadder8)
    (entries : List FrameEntry) (acc : Scan (List Push)) :
    ladderGroupApply E proof true sessLo sessHi ladder8 entries (acc.fill E proof) =
      (ladderGroupApply pushLog proof true sessLo sessHi ladder8 entries acc).map
        (Scan.fill E proof) := by
  unfold ladderGroupApply
  dsimp only
  rw [show (acc.fill E proof).w = acc.w from rfl, applyGroup_fill]
  split <;> rfl

theorem ladderGroup16Apply_fill (sessLo sessHi : ℕ) (ladder8 : SoaLadder8)
    (entries : List FrameEntry) (acc : Scan (List Push)) :
    ladderGroup16Apply E proof true sessLo sessHi ladder8 entries (acc.fill E proof) =
      (ladderGroup16Apply pushLog proof true sessLo sessHi ladder8 entries acc).map
        (Scan.fill E proof) := by
  unfold ladderGroup16Apply
  dsimp only
  rw [show (acc.fill E proof).w = acc.w from rfl, applyGroup_fill]
  split <;> rfl

/-- The scan over any emitter is the logging scan with its log pushed. -/
theorem scanLadder_fill (sessLo sessHi : ℕ) (ladder : Option SoaLadder8) (fuel : ℕ)
    (entries : List FrameEntry) (acc : Scan (List Push)) :
    scanLadder E proof true sessLo sessHi ladder fuel entries (acc.fill E proof) =
      let r := scanLadder pushLog proof true sessLo sessHi ladder fuel entries acc
      (r.1.fill E proof, r.2) := by
  induction fuel generalizing entries acc with
  | zero => rfl
  | succ fuel ih =>
      have hgroup16 : (ladder.bind fun ladder8 => if 16 ≤ entries.length then
          ladderGroup16Apply E proof true sessLo sessHi ladder8 entries (acc.fill E proof)
          else none) = (ladder.bind fun ladder8 => if 16 ≤ entries.length then
            ladderGroup16Apply pushLog proof true sessLo sessHi ladder8 entries acc
            else none).map (Scan.fill E proof) := by
        cases ladder with
        | none => rfl
        | some ladder8 =>
            simp only [Option.bind_some, ladderGroup16Apply_fill]
            split <;> rfl
      have hgroup8 : (ladder.bind fun ladder8 => if 8 ≤ entries.length then
          ladderGroupApply E proof true sessLo sessHi ladder8 entries (acc.fill E proof)
          else none) = (ladder.bind fun ladder8 => if 8 ≤ entries.length then
            ladderGroupApply pushLog proof true sessLo sessHi ladder8 entries acc
            else none).map (Scan.fill E proof) := by
        cases ladder with
        | none => rfl
        | some ladder8 =>
            simp only [Option.bind_some, ladderGroupApply_fill]
            split <;> rfl
      have hprogressed : ∀ acc : Scan (List Push),
          ({ acc.fill E proof with progressed := true } : Scan ε) =
            ({ acc with progressed := true } : Scan (List Push)).fill E proof := fun _ => rfl
      unfold scanLadder
      dsimp only
      rw [hgroup16, hgroup8]
      generalize (ladder.bind fun ladder8 => if 16 ≤ entries.length then
        ladderGroup16Apply pushLog proof true sessLo sessHi ladder8 entries acc
        else none) = group16
      generalize (ladder.bind fun ladder8 => if 8 ≤ entries.length then
        ladderGroupApply pushLog proof true sessLo sessHi ladder8 entries acc
        else none) = group8
      cases group16 with
      | some acc' => exact ih _ { acc' with progressed := true }
      | none =>
          cases group8 with
          | some acc' => exact ih _ { acc' with progressed := true }
          | none =>
              cases entries with
              | nil => rfl
              | cons e entries =>
                  simp only [Option.map_none, steadyStep_fill]
                  cases (steadyStep pushLog proof true sessLo sessHi e acc).1 with
                  | cold => rfl
                  | advanced =>
                      dsimp only
                      rw [hprogressed]
                      exact ih _ _
                  | dupSkipped => exact ih _ _

end Buffer

/-! ## Consecutive spans -/

/-- The number behind the last of consecutive spans. -/
def pushesEnd (w : ℕ) (pushes : List Push) : ℕ :=
  pushes.foldl (fun w p => wrappingAdd w p.count) w

/-- Each span starts where the one before it ended. -/
@[grind =]
def Chained : ℕ → List Push → Prop
  | _, [] => True
  | w, p :: pushes => p.firstSeq = w ∧ Chained (wrappingAdd w p.count) pushes

theorem pushesEnd_append (w : ℕ) (pushes pushes' : List Push) :
    pushesEnd w (pushes ++ pushes') = pushesEnd (pushesEnd w pushes) pushes' :=
  List.foldl_append

theorem chained_append (w : ℕ) (pushes pushes' : List Push) :
    Chained w (pushes ++ pushes') ↔ Chained w pushes ∧ Chained (pushesEnd w pushes) pushes' := by
  induction pushes generalizing w with
  | nil => simp [Chained, pushesEnd]
  | cons p pushes ih =>
      rw [List.cons_append, Chained, ih, Chained, and_assoc]
      rfl

theorem wrappingAdd_assoc (a b c : ℕ) :
    wrappingAdd (wrappingAdd a b) c = wrappingAdd a (b + c) := by
  simp only [wrappingAdd]
  omega

theorem wrappingAdd_wrappingSub_one (a b : ℕ) :
    wrappingAdd (wrappingSub (wrappingAdd a b) 1) 1 = wrappingAdd a b := by
  simp only [wrappingAdd, wrappingSub]
  omega

/-- The emissions of a group. -/
def pairPushes (pairs : List (FrameEntry × FrameEntry)) : List Push :=
  pairs.map fun p => p.1.push

theorem pushesEnd_pairs (w : ℕ) {pairs : List (FrameEntry × FrameEntry)} (hne : pairs ≠ []) :
    pushesEnd w (pairPushes pairs) = wrappingAdd w (sumEven pairs) := by
  induction pairs generalizing w with
  | nil => exact absurd rfl hne
  | cons p pairs ih =>
      cases pairs with
      | nil => simp [pairPushes, pushesEnd, sumEven, FrameEntry.push]
      | cons q pairs =>
          have hrest := ih (wrappingAdd w p.1.blocks.length) (List.cons_ne_nil q pairs)
          rw [wrappingAdd_assoc] at hrest
          exact hrest

/-- The scalar reference chains the even entries of its eight. -/
theorem chained_of_ladder8 {group : List FrameEntry} {w : ℕ} (hlen : group.length = 8)
    (h : ladder8Scalar (group.map (·.firstSeq)) (group.map (·.blocks.length)) w = true) :
    pairUp group ≠ [] ∧ Chained w (pairPushes (pairUp group)) := by
  match group, hlen, h with
  | [e0, e1, e2, e3, e4, e5, e6, e7], _, h =>
      simp [ladder8Scalar, List.range_succ] at h
      obtain ⟨⟨anchor, -⟩, ⟨⟨-, -⟩, h2⟩, ⟨⟨-, -⟩, h4⟩, ⟨⟨-, -⟩, h6⟩, -, -⟩ := h
      refine ⟨List.cons_ne_nil _ _, ?_⟩
      simp [pairUp, pairPushes, Chained, FrameEntry.push, anchor, h2, h4, h6]

section Logged

variable {proof : LiveFeedProof} {sessLo sessHi w₀ : ℕ}

/-- What a logging scan has emitted so far are consecutive spans up to its watermark. -/
structure Logged (w₀ : ℕ) (acc : Scan (List Push)) : Prop where
  chained : Chained w₀ acc.em
  ended : acc.w = pushesEnd w₀ acc.em

theorem Logged.append {acc acc' : Scan (List Push)} (h : Logged w₀ acc) (pushes : List Push)
    (hem : acc'.em = acc.em ++ pushes) (hchain : Chained acc.w pushes)
    (hw : acc'.w = pushesEnd acc.w pushes) : Logged w₀ acc' where
  chained := by
    rw [hem, chained_append, ← h.ended]
    exact ⟨h.chained, hchain⟩
  ended := by rw [hem, pushesEnd_append, ← h.ended, hw]

theorem Logged.steadyStep (proof : LiveFeedProof) (sessLo sessHi : ℕ) {acc : Scan (List Push)}
    (h : Logged w₀ acc) (e : FrameEntry) :
    Logged w₀ (steadyStep pushLog proof true sessLo sessHi e acc).2 := by
  unfold Arbitrator.steadyStep
  dsimp only
  split_ifs with _ _ _ hfirst
  · exact h
  · exact h
  · exact ⟨h.chained, h.ended⟩
  · exact h
  · exact h
  · rw [ne_eq, not_not] at hfirst
    apply h.append [e.push]
    · rfl
    · exact ⟨hfirst, trivial⟩
    · rw [wrappingAdd_wrappingSub_one, hfirst]
      rfl

theorem applyGroup_log (proof : LiveFeedProof) {pairs : List (FrameEntry × FrameEntry)}
    (hne : pairs ≠ []) (acc : Scan (List Push)) :
    (applyGroup pushLog proof true pairs acc).em = acc.em ++ pairPushes pairs ∧
      (applyGroup pushLog proof true pairs acc).w = wrappingAdd acc.w (sumEven pairs) := by
  have hfold : ∀ (rest : List (FrameEntry × FrameEntry)) (acc : Scan (List Push)),
      (rest.foldl (fun acc p => acc.emit pushLog proof true p.1) acc).em =
        acc.em ++ pairPushes rest := by
    intro rest
    induction rest with
    | nil => exact fun acc => (List.append_nil _).symm
    | cons p rest ih =>
        intro acc
        rw [List.foldl_cons, ih]
        exact List.append_assoc _ _ _
  cases pairs with
  | nil => exact absurd rfl hne
  | cons p pairs => exact ⟨hfold _ _, rfl⟩

theorem Logged.group {acc : Scan (List Push)} (h : Logged w₀ acc)
    {pairs : List (FrameEntry × FrameEntry)} (hne : pairs ≠ [])
    (hchain : Chained acc.w (pairPushes pairs)) :
    Logged w₀ (applyGroup pushLog proof true pairs acc) := by
  obtain ⟨hem, hw⟩ := applyGroup_log proof hne acc
  apply h.append _ hem hchain
  rw [hw, pushesEnd_pairs _ hne]

theorem Logged.group8 {ladder8 : SoaLadder8} (hk : ladder8.Exact) {entries : List FrameEntry}
    (hlen : 8 ≤ entries.length) {acc acc' : Scan (List Push)} (hlog : Logged w₀ acc)
    (h : ladderGroupApply pushLog proof true sessLo sessHi ladder8 entries acc = some acc') :
    Logged w₀ acc' := by
  have htake : (entries.take 8).length = 8 := List.length_take_of_le hlen
  unfold ladderGroupApply at h
  dsimp only at h
  split at h
  · rename_i hgroup
    cases h
    obtain ⟨hladder, -⟩ := hgroup
    rw [hk _ _ _ (by rw [List.length_map, htake]) (by rw [List.length_map, htake])] at hladder
    obtain ⟨hne, hchain⟩ := chained_of_ladder8 htake hladder
    exact hlog.group hne hchain
  · cases h

theorem Logged.group16 {ladder8 : SoaLadder8} (hk : ladder8.Exact) {entries : List FrameEntry}
    (hlen : 16 ≤ entries.length) {acc acc' : Scan (List Push)} (hlog : Logged w₀ acc)
    (h : ladderGroup16Apply pushLog proof true sessLo sessHi ladder8 entries acc = some acc') :
    Logged w₀ acc' := by
  have htakeA : (entries.take 8).length = 8 := List.length_take_of_le (by omega)
  have htakeB : ((entries.drop 8).take 8).length = 8 := by
    rw [List.length_take_of_le]
    rw [List.length_drop]
    omega
  have hpairs : pairUp (entries.take 16) =
      pairUp (entries.take 8) ++ pairUp ((entries.drop 8).take 8) := by
    rw [(List.take_add : entries.take (8 + 8) = _), pairUp_append _ _ (by rw [htakeA])]
  unfold ladderGroup16Apply at h
  dsimp only at h
  split at h
  · rename_i hgroup
    cases h
    obtain ⟨hladderA, hladderB, -⟩ := hgroup
    rw [hk _ _ _ (by rw [List.length_map, htakeA]) (by rw [List.length_map, htakeA])] at hladderA
    rw [hk _ _ _ (by rw [List.length_map, htakeB]) (by rw [List.length_map, htakeB])] at hladderB
    obtain ⟨hneA, hchainA⟩ := chained_of_ladder8 htakeA hladderA
    obtain ⟨-, hchainB⟩ := chained_of_ladder8 htakeB hladderB
    rw [hpairs]
    apply hlog.group (List.append_ne_nil_of_left_ne_nil hneA _)
    rw [pairPushes, List.map_append, chained_append]
    refine ⟨hchainA, ?_⟩
    rw [← pushesEnd_pairs _ hneA] at hladderB hchainB
    exact hchainB
  · cases h

/-- The spans of a run are consecutive, from the watermark on. -/
theorem Logged.scanLadder {ladder : Option SoaLadder8}
    (hk : ∀ ladder8 ∈ ladder, SoaLadder8.Exact ladder8) (fuel : ℕ) (entries : List FrameEntry)
    {acc : Scan (List Push)} (h : Logged w₀ acc) :
    Logged w₀ (scanLadder pushLog proof true sessLo sessHi ladder fuel entries acc).1 := by
  induction fuel generalizing entries acc with
  | zero => exact h
  | succ fuel ih =>
      unfold Arbitrator.scanLadder
      dsimp only
      split
      · rename_i heq
        obtain ⟨ladder8, hl, heq⟩ := Option.bind_eq_some_iff.mp heq
        split at heq
        · rename_i hlen
          have hgroup := h.group16 (hk _ hl) hlen heq
          exact ih _ ⟨hgroup.chained, hgroup.ended⟩
        · cases heq
      · rename_i heq
        obtain ⟨ladder8, hl, heq⟩ := Option.bind_eq_some_iff.mp heq
        split at heq
        · rename_i hlen
          have hgroup := h.group8 (hk _ hl) hlen heq
          exact ih _ ⟨hgroup.chained, hgroup.ended⟩
        · cases heq
      · exact h
      · have hstep := h.steadyStep proof sessLo sessHi
        split
        · exact hstep _
        · exact ih _ ⟨(hstep _).chained, (hstep _).ended⟩
        · exact ih _ (hstep _)

end Logged

/-! ## What the emitters deliver -/

/-- Spans whose bodies lie in one blob of less than 4 GiB, at addresses that never descend, with
lengths and counts of 16 bits. -/
structure InBlob (mem : ℕ → UInt8) (lo size : ℕ) (pushes : List Push) : Prop where
  small : size < 2 ^ 32
  top : lo + size < 2 ^ 64
  inside : ∀ p ∈ pushes, lo ≤ p.addr ∧ p.addr + p.body.length ≤ lo + size
  held : ∀ p ∈ pushes, readBytes mem p.addr p.body.length = p.body
  ascending : pushes.Pairwise fun p q => p.addr ≤ q.addr
  lengths : ∀ p ∈ pushes, p.body.length < 2 ^ 16
  counts : ∀ p ∈ pushes, p.count < 2 ^ 16

instance (mem : ℕ → UInt8) (lo size : ℕ) (pushes : List Push) :
    Decidable (InBlob mem lo size pushes) :=
  decidable_of_iff (size < 2 ^ 32 ∧ lo + size < 2 ^ 64 ∧
    (∀ p ∈ pushes, lo ≤ p.addr ∧ p.addr + p.body.length ≤ lo + size) ∧
    (∀ p ∈ pushes, readBytes mem p.addr p.body.length = p.body) ∧
    (pushes.Pairwise fun p q => p.addr ≤ q.addr) ∧
    (∀ p ∈ pushes, p.body.length < 2 ^ 16) ∧ ∀ p ∈ pushes, p.count < 2 ^ 16)
    ⟨fun ⟨h₁, h₂, h₃, h₄, h₅, h₆, h₇⟩ => ⟨h₁, h₂, h₃, h₄, h₅, h₆, h₇⟩,
      fun h => ⟨h.small, h.top, h.inside, h.held, h.ascending, h.lengths, h.counts⟩⟩

section Emitters

variable {mem : ℕ → UInt8} {lo size : ℕ} {proof : LiveFeedProof} {w₀ : ℕ}

theorem InBlob.left {pushes pushes' : List Push} (h : InBlob mem lo size (pushes ++ pushes')) :
    InBlob mem lo size pushes where
  small := h.small
  top := h.top
  inside := fun p hp => h.inside p (List.mem_append_left _ hp)
  held := fun p hp => h.held p (List.mem_append_left _ hp)
  ascending := (List.pairwise_append.mp h.ascending).1
  lengths := fun p hp => h.lengths p (List.mem_append_left _ hp)
  counts := fun p hp => h.counts p (List.mem_append_left _ hp)

/-- The calls of the packed emitter and its buffer stand for the spans pushed. -/
structure Packs (mem : ℕ → UInt8) (lo size : ℕ) (proof : LiveFeedProof) (w₀ : ℕ)
    (pushed : List Push) (out : PackedBuf × List BatchCall) : Prop where
  shown : out.2.flatMap (BatchCall.spans mem) ++
      (extents proof.gen out.1.base out.1.first0 out.1.words).map (Extent.read mem) =
    pushed.map (Push.span proof)
  number : out.1.words ≠ [] → wordsEnd out.1.first0 out.1.words = pushesEnd w₀ pushed
  base : out.1.words ≠ [] → ∃ p ∈ pushed, p.addr = out.1.base
  total : out.1.total = (out.1.words.map (· / 2 ^ 48)).sum
  words : ∀ word ∈ out.1.words, word < 2 ^ 64 ∧
    out.1.base + word % 2 ^ 32 + word / 2 ^ 32 % 2 ^ 16 ≤ lo + size
  carried : ∀ c ∈ out.2, c.Carried lo size

theorem Packs.start : Packs mem lo size proof w₀ [] (packedEmitter.new, []) where
  shown := rfl
  number := fun h => absurd rfl h
  base := fun h => absurd rfl h
  total := rfl
  words := nofun
  carried := nofun

/-- The word of a span in reach of the base. -/
theorem packed_word {p : Push} {base : ℕ} (hbase : base ≤ p.addr) (hlow : lo ≤ base)
    (hsmall : size < 2 ^ 32) (htop : lo + size < 2 ^ 64)
    (hin : p.addr + p.body.length ≤ lo + size) (hlen : p.body.length < 2 ^ 16)
    (hcount : p.count < 2 ^ 16) (hheld : readBytes mem p.addr p.body.length = p.body)
    (proof : LiveFeedProof) :
    let word := packWord (wrappingSub p.addr base) p.body.length p.count
    (extents proof.gen base p.firstSeq [word]).map (Extent.read mem) = [p.span proof] ∧
      word / 2 ^ 48 = p.count ∧ word < 2 ^ 64 ∧
      base + word % 2 ^ 32 + word / 2 ^ 32 % 2 ^ 16 ≤ lo + size := by
  dsimp only
  rw [wrappingSub_of_le hbase (by omega)]
  obtain ⟨h₁, h₂, h₃⟩ := packWord_fields (show p.addr - base < 2 ^ 32 by omega) hlen hcount
  simp only [extents, List.map_cons, List.map_nil, Extent.read, h₁, h₂, h₃,
    Nat.add_sub_cancel' hbase, hheld]
  refine ⟨rfl, trivial, ?_, hin⟩
  omega

/-- The packed emitter takes one more span. -/
theorem Packs.push {pushed : List Push} {out : PackedBuf × List BatchCall}
    (h : Packs mem lo size proof w₀ pushed out) {p : Push}
    (hblob : InBlob mem lo size (pushed ++ [p])) (hfirst : p.firstSeq = pushesEnd w₀ pushed) :
    Packs mem lo size proof w₀ (pushed ++ [p])
      (packedEmitter.push out.1 p.firstSeq p.count p.addr p.body p.blocks, out.2) := by
  have hp : p ∈ pushed ++ [p] := List.mem_append_right _ List.mem_cons_self
  obtain ⟨hlo, hin⟩ := hblob.inside p hp
  -- the buffer as the word is pushed: the first word of a batch sets base and number
  obtain ⟨base, first0, hpush, hextents, hnumber, hbase, hat, hwords⟩ :
      ∃ base first0, packedEmitter.push out.1 p.firstSeq p.count p.addr p.body p.blocks =
            { words := out.1.words ++ [packWord (wrappingSub p.addr base) p.body.length p.count]
              base := base
              first0 := first0
              total := out.1.total + p.count } ∧
        extents proof.gen base first0 out.1.words =
          extents proof.gen out.1.base out.1.first0 out.1.words ∧
        wordsEnd first0 out.1.words = p.firstSeq ∧ base ≤ p.addr ∧
        (∃ q ∈ pushed ++ [p], q.addr = base) ∧
        ∀ word ∈ out.1.words, word < 2 ^ 64 ∧
          base + word % 2 ^ 32 + word / 2 ^ 32 % 2 ^ 16 ≤ lo + size := by
    by_cases hne : out.1.words = []
    · refine ⟨p.addr, p.firstSeq, ?_, ?_, ?_, Nat.le_refl _, ⟨p, hp, rfl⟩, ?_⟩
      · simp [packedEmitter, hne]
      · rw [hne]
        rfl
      · rw [hne]
        rfl
      · rw [hne]
        intro w hw
        cases hw
    · obtain ⟨q, hq, hqbase⟩ := h.base hne
      refine ⟨out.1.base, out.1.first0, ?_, rfl, (h.number hne).trans hfirst.symm, ?_,
        ⟨q, List.mem_append_left _ hq, hqbase⟩, h.words⟩
      · simp [packedEmitter, hne]
      · rw [← hqbase]
        exact (List.pairwise_append.mp hblob.ascending).2.2 q hq p List.mem_cons_self
  obtain ⟨q, hq, hqbase⟩ := hat
  have hlow : lo ≤ base := hqbase ▸ (hblob.inside q hq).1
  obtain ⟨hspan, hcount, hword, hreach⟩ := packed_word hbase hlow hblob.small hblob.top hin
    (hblob.lengths p hp) (hblob.counts p hp) (hblob.held p hp) proof
  rw [hpush]
  exact {
    shown := by
      dsimp only
      rw [extents_append, List.map_append, hextents, hnumber, hspan, ← List.append_assoc,
        h.shown, List.map_append]
      rfl
    number := fun _ => by
      dsimp only
      rw [wordsEnd_append, hnumber, pushesEnd_append, ← hfirst, wordsEnd, List.foldl_cons,
        List.foldl_nil, hcount]
      rfl
    base := fun _ => ⟨q, hq, hqbase⟩
    total := by
      dsimp only
      rw [List.map_append, List.sum_append, h.total, List.map_singleton, List.sum_singleton, hcount]
    words := by
      intro word hmem
      rcases List.mem_append.mp hmem with hold | hnew
      · exact hwords word hold
      · rw [List.mem_singleton.mp hnew]
        exact ⟨hword, hreach⟩
    carried := h.carried }

theorem Packs.flush {pushed : List Push} {em : PackedBuf} {calls : List BatchCall}
    (h : Packs mem lo size proof w₀ pushed (em, calls)) (hblob : InBlob mem lo size pushed) :
    Packs mem lo size proof w₀ pushed
      ((packedEmitter.flush em proof).1, calls ++ (packedEmitter.flush em proof).2) := by
  simp only [packedEmitter]
  split
  · rename_i hne
    have hne' : em.words ≠ [] := fun hnil => hne (by rw [hnil]; rfl)
    have hbase : lo ≤ em.base := by
      obtain ⟨p, hp, hbase⟩ := h.base hne'
      exact hbase ▸ (hblob.inside p hp).1
    exact {
      shown := by
        rw [List.flatMap_append, ← h.shown]
        simp [BatchCall.spans, extents]
      number := fun hne => absurd rfl hne
      base := fun hne => absurd rfl hne
      total := rfl
      words := fun _ h => by cases h
      carried := by
        intro c hc
        rcases List.mem_append.mp hc with hold | hnew
        · exact h.carried c hold
        · rw [List.mem_singleton.mp hnew]
          exact ⟨hne', h.total, hbase, h.words⟩ }
  · rw [List.append_nil]
    exact h

theorem Packs.pushOut {pushed : List Push} {out : PackedBuf × List BatchCall}
    (h : Packs mem lo size proof w₀ pushed out) {p : Push}
    (hblob : InBlob mem lo size (pushed ++ [p])) (hfirst : p.firstSeq = pushesEnd w₀ pushed) :
    Packs mem lo size proof w₀ (pushed ++ [p]) (pushOut packedEmitter proof out p) := by
  have hpush := h.push hblob hfirst
  unfold Arbitrator.pushOut
  dsimp only
  split
  · exact hpush.flush hblob
  · exact hpush

/-- Consecutive spans of one blob, pushed one after the other. -/
theorem packs_pushAll {pushes : List Push} (hblob : InBlob mem lo size pushes)
    (hchain : Chained w₀ pushes) :
    Packs mem lo size proof w₀ pushes (pushAll packedEmitter proof pushes) := by
  induction pushes using List.reverseRecOn with
  | nil => exact Packs.start
  | append_singleton pushes p ih =>
      obtain ⟨hinit, hlast⟩ := (chained_append w₀ pushes [p]).mp hchain
      rw [pushAll, List.foldl_append]
      exact (ih hblob.left hinit).pushOut hblob hlast.1

/-- The records of the classic emitter are the spans pushed. -/
theorem recs_pushAll (pushes : List Push) :
    let out := pushAll recEmitter proof pushes
    out.2.flatMap (BatchCall.spans mem) ++
        (recEmitter.flush out.1 proof).2.flatMap (BatchCall.spans mem) =
      pushes.map (Push.span proof) := by
  have hflush : ∀ recs : List SpanRec,
      (recEmitter.flush recs proof).2.flatMap (BatchCall.spans mem) =
        recs.map (fun r => ⟨proof.gen, r.firstSeq, r.count, r.body⟩) ∧
      (recEmitter.flush recs proof).1 = [] := by
    intro recs
    cases recs with
    | nil => exact ⟨rfl, rfl⟩
    | cons r recs => exact ⟨List.append_nil _, rfl⟩
  dsimp only
  induction pushes using List.reverseRecOn with
  | nil => rfl
  | append_singleton pushes p ih =>
      rw [pushAll, List.foldl_append, ← pushAll, List.map_append, ← ih]
      generalize pushAll recEmitter proof pushes = out
      rw [(hflush out.1).1]
      simp only [List.foldl_cons, List.foldl_nil, Arbitrator.pushOut]
      have hpush : recEmitter.push out.1 p.firstSeq p.count p.addr p.body p.blocks =
          out.1 ++ [⟨p.firstSeq, p.count, p.body, p.blocks⟩] := rfl
      rw [hpush]
      split
      · rw [(hflush _).2, List.flatMap_append, (hflush _).1, (hflush []).1, List.map_append,
          List.map_nil, List.append_nil, List.append_assoc]
        rfl
      · rw [(hflush _).1, List.map_append, List.append_assoc]
        rfl

end Emitters

/-! ## One run, two emitters -/

namespace Sequencer

theorem steadyScanLadder_pushes {ε : Type} (E : SpanEmit ε) (ladder : Option SoaLadder8)
    (s : Sequencer) (entries : List FrameEntry) :
    let out := pushAll E ⟨s.gen⟩ (s.steadyPushes ladder entries)
    (s.steadyScanLadder E true ladder entries).calls = out.2 ++ (E.flush out.1 ⟨s.gen⟩).2 := by
  rw [steadyScanLadder, show ({ w := s.w, em := E.new } : Scan ε) =
    Scan.fill E ⟨s.gen⟩ { w := s.w, em := pushLog.new } from rfl, scanLadder_fill]
  rfl

/-- Apart from the calls a scan is the same with every emitter. -/
theorem steadyScanLadder_rest {ε ε' : Type} (E : SpanEmit ε) (E' : SpanEmit ε')
    (ladder : Option SoaLadder8) (s : Sequencer) (entries : List FrameEntry) :
    { s.steadyScanLadder E true ladder entries with calls := [] } =
      { s.steadyScanLadder E' true ladder entries with calls := [] } := by
  have hrest : ∀ {ε : Type} (E : SpanEmit ε),
      { s.steadyScanLadder E true ladder entries with calls := [] } =
        { s.steadyScanLadder pushLog true ladder entries with calls := [] } := by
    intro ε E
    rw [steadyScanLadder, show ({ w := s.w, em := E.new } : Scan ε) =
      Scan.fill E ⟨s.gen⟩ { w := s.w, em := pushLog.new } from rfl, scanLadder_fill]
    rfl
  rw [hrest E, hrest E']

end Sequencer

end HftProj.Arbitrator
