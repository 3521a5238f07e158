import HftProj.Testkit.FleetTape

/-!
# The grids of a slot

What a slot's tape holds while the windows go by: the chunk grid starts afresh with every window,
the super-chunk grid counts on. A super-chunk that a window completes covers the spans that
earlier windows left over.
-/

namespace HftProj.Testkit.FleetTape

open HftProj.Lib HftProj.Lib.AffineMaps
open SpanField SuperFold

/-! ## Runs of records -/

section Runs

variable (cpu : Cpu)

theorem run_append (ps qs : List P64) :
    composeSpanRun cpu (ps ++ qs) =
      p64Compose cpu (composeSpanRun cpu ps) (composeSpanRun cpu qs) := by
  rw [composeSpanRun, List.foldl_append]
  exact (compose_foldl _ qs).symm

theorem run_snoc (ps : List P64) (r : P64) :
    composeSpanRun cpu (ps ++ [r]) = p64Compose cpu (composeSpanRun cpu ps) r := by
  rw [composeSpanRun, List.foldl_append]
  rfl

theorem run_nil : composeSpanRun cpu [] = P64.identity := rfl

variable {cpu}

/-- A record for a further run of spans. -/
theorem run_group {rs ps : List P64} (h : composeSpanRun cpu rs = composeSpanRun cpu ps)
    (qs : List P64) :
    composeSpanRun cpu (rs ++ [composeSpanRun cpu qs]) = composeSpanRun cpu (ps ++ qs) := by
  rw [run_snoc, h, run_append]

/-- The hash of a chain of records. -/
theorem foldl_hash (h : BitVec 64) (ps : List P64) :
    ps.foldl (fun h r => mulmod cpu h r.c ^^^ r.v) h =
      hashApplyP64 cpu h (composeSpanRun cpu ps) := by
  induction ps using List.reverseRecOn with
  | nil => exact (BitVec.xor_zero.trans (mulmod_one cpu h)).symm
  | append_singleton ps p ih =>
      rw [List.foldl_append, List.foldl_cons, List.foldl_nil, ih, run_snoc]
      apply res_injective
      simp only [hashApplyP64, p64Compose, res_xor, res_mulmod]
      ring

/-- The records of the whole blocks of 64 spans. -/
def subRecords (cpu : Cpu) (spans : List P64) : List P64 :=
  (List.range (spans.length / subSpans)).map fun j =>
    composeSpanRun cpu (between (j * subSpans) ((j + 1) * subSpans) spans)

theorem subRecords_length (spans : List P64) :
    (subRecords cpu spans).length = spans.length / subSpans := by
  rw [subRecords, List.length_map, List.length_range]

theorem block_le {spans : List P64} {j : ℕ} (hj : j < spans.length / subSpans) :
    (j + 1) * subSpans ≤ spans.length :=
  (Nat.mul_le_mul_right subSpans hj).trans (Nat.div_mul_le_self _ _)

theorem subRecords_snoc {spans : List P64} (r : P64) (h : (spans.length + 1) % subSpans ≠ 0) :
    subRecords cpu (spans ++ [r]) = subRecords cpu spans := by
  rw [subRecords, List.length_append, List.length_singleton, div_succ_of_mod_ne h, subRecords]
  apply List.map_congr_left
  intro j hj
  rw [between_snoc (block_le (List.mem_range.mp hj))]

theorem subRecords_snoc_full {spans : List P64} (r : P64)
    (h : (spans.length + 1) % subSpans = 0) :
    subRecords cpu (spans ++ [r]) =
      subRecords cpu spans ++ [composeSpanRun cpu (begun subSpans spans ++ [r])] := by
  have hcount : (spans ++ [r]).length / subSpans = spans.length / subSpans + 1 := by
    rw [List.length_append, List.length_singleton]
    exact Nat.succ_div_of_dvd (Nat.dvd_of_mod_eq_zero h)
  have hend : (spans.length / subSpans + 1) * subSpans = (spans ++ [r]).length := by
    rw [← hcount, Nat.div_mul_cancel (Nat.dvd_of_mod_eq_zero ?_)]
    rw [List.length_append, List.length_singleton, h]
  rw [subRecords, hcount, List.range_succ, List.map_append, List.map_singleton, hend, between,
    List.take_length, block_snoc, subRecords]
  congr 1
  apply List.map_congr_left
  intro j hj
  rw [between_snoc (block_le (List.mem_range.mp hj))]

/-- Sub-records in a row compose to the spans that they cover. -/
theorem run_subRecords {spans : List P64} {i j : ℕ} (hij : i ≤ j)
    (hj : j ≤ spans.length / subSpans) :
    composeSpanRun cpu (between i j (subRecords cpu spans)) =
      composeSpanRun cpu (between (i * subSpans) (j * subSpans) spans) := by
  induction j, hij using Nat.le_induction with
  | base => rw [between_self, between_self]
  | succ j hij ih =>
      have hlt : j < (subRecords cpu spans).length := by
        rw [subRecords_length]
        exact hj
      have hone : between j (j + 1) (subRecords cpu spans) =
          [composeSpanRun cpu (between (j * subSpans) ((j + 1) * subSpans) spans)] := by
        rw [between, List.take_add_one, List.drop_append_of_le_length (by simp; omega),
          List.drop_eq_nil_of_le (List.length_take_le _ _), List.getElem?_eq_getElem hlt]
        simp [subRecords]
      rw [← between_append hij (Nat.le_succ j) (Nat.le_of_lt hlt), hone,
        run_group (ih (Nat.le_of_succ_le hj)), between_append (Nat.mul_le_mul_right _ hij)
          (Nat.mul_le_mul_right _ (Nat.le_succ j))
          ((Nat.mul_le_mul_right _ (Nat.le_of_lt hj)).trans (Nat.div_mul_le_self _ _))]

end Runs

/-! ## What a slot holds -/

section Parts

variable (host : Host)

/-- The window's accumulator and its chain. -/
structure WindowPart (closed : List (List P64)) (cur : List P64) (st : SlotState) : Prop where
  windowRec : st.tape.windowRec = closed.map (composeSpanRun host.cpu)
  winAcc : st.winAcc = composeSpanRun host.cpu cur
  winH : st.winH = hashApplyP64 host.cpu spanSeed (composeSpanRun host.cpu cur)

/-- The chunk grid: the records of each closed window, then those of the open one. -/
structure ChunkPart (closed : List (List P64)) (cur : List P64) (cg : List (List P64))
    (cs : List P64) (st : SlotState) : Prop where
  chunkRec : st.tape.chunkRec = cg.flatten ++ cs
  windowChunks : st.tape.windowChunks = frontiers cg
  closedRun : cg.map (composeSpanRun host.cpu) = closed.map (composeSpanRun host.cpu)
  openRun : composeSpanRun host.cpu cs =
    composeSpanRun host.cpu (cur.take (cur.length / slotChunk * slotChunk))
  chunkAcc : st.chunkAcc = composeSpanRun host.cpu (begun slotChunk cur)
  chunkLen : st.chunkLen = cur.length % slotChunk

end Parts

/-- A window completes a super-chunk. -/
def Crosses (past cur : List P64) : Prop :=
  (past ++ cur).length / superSpans ≠ past.length / superSpans

instance (past cur : List P64) : Decidable (Crosses past cur) :=
  inferInstanceAs (Decidable (_ ≠ _))

/-- The spans since the last whole super-chunk or the window's start. -/
def sinceSpans (past cur : List P64) : List P64 :=
  if Crosses past cur then begun superSpans (past ++ cur) else cur

/-- The spans that the window's records on the super-chunk grid cover. -/
def superCover (past cur : List P64) : List P64 :=
  if Crosses past cur then (past ++ cur).drop (past.length / superSpans * superSpans) else cur

/-- The super-chunk grid, of whose super-chunks the first `f` are recorded, while the boundary
accumulator holds the spans `since`. -/
structure SuperGrid (host : Host) (closed : List (List P64)) (cur since : List P64)
    (sg : List (List P64)) (ss : List P64) (f : ℕ) (st : SlotState) : Prop where
  subRec : st.tape.subRec = subRecords host.cpu (closed.flatten ++ cur)
  subAcc : st.subAcc = composeSpanRun host.cpu (begun subSpans (closed.flatten ++ cur))
  subLen : st.subLen = (closed.flatten ++ cur).length % subSpans
  pending : st.superPending = (subRecords host.cpu (closed.flatten ++ cur)).drop (f * superSubs)
  low : closed.flatten.length / superSpans ≤ f
  staged : f * superSubs ≤ (closed.flatten ++ cur).length / subSpans
  supers : st.tape.supers = sg.flatten ++ ss
  windowSuper : st.tape.windowSuper = frontiers sg
  closedRun : sg.map (composeSpanRun host.cpu) =
    withPast (fun past cur => composeSpanRun host.cpu (superCover past cur)) closed
  openRun : composeSpanRun host.cpu ss = composeSpanRun host.cpu (between
    (closed.flatten.length / superSpans * superSpans) (f * superSpans) (closed.flatten ++ cur))
  sinceSuper : st.sinceSuper = composeSpanRun host.cpu since
  sinceLen : st.sinceSuperLen = since.length

/-- The super-chunk grid between two spans: less than two super-chunks are staged. -/
structure SuperPart (host : Host) (closed : List (List P64)) (cur : List P64)
    (sg : List (List P64)) (ss : List P64) (f : ℕ) (st : SlotState) : Prop where
  grid : SuperGrid host closed cur (sinceSpans closed.flatten cur) sg ss f st
  room : (closed.flatten ++ cur).length / subSpans < (f + 2) * superSubs

variable {host : Host} {closed : List (List P64)} {cur since : List P64}
  {cg sg : List (List P64)} {cs ss : List P64} {f : ℕ} {st : SlotState}

/-! ## A span -/

theorem WindowPart.window (h : WindowPart host closed cur st) (r : P64) (msgCount : BitVec 32) :
    WindowPart host closed (cur ++ [r]) (st.window host r msgCount) := by
  refine ⟨h.windowRec, ?_, ?_⟩
  · rw [run_snoc, ← h.winAcc]
    rfl
  · have hhash (ps : List P64) := @foldl_hash host.cpu spanSeed ps
    rw [← hhash, List.foldl_append, hhash, ← h.winH]
    rfl

/-- The chunk grid changes nothing but its own. -/
def ChunkShape (st st' : SlotState) : Prop :=
  ∃ chunkRec chunkAcc chunkLen, st' =
    { st with
      tape := { st.tape with chunkRec := chunkRec }
      chunkAcc := chunkAcc
      chunkLen := chunkLen }

theorem chunk_shape (r : P64) (st : SlotState) : ChunkShape st (st.chunk host r) := by
  rw [SlotState.chunk]
  split
  · exact ⟨_, _, _, rfl⟩
  · exact ⟨st.tape.chunkRec, _, _, rfl⟩

theorem ChunkPart.chunk (h : ChunkPart host closed cur cg cs st) (r : P64) :
    ∃ cs', ChunkPart host closed (cur ++ [r]) cg cs' (st.chunk host r) := by
  have hacc : p64Compose host.cpu st.chunkAcc r =
      composeSpanRun host.cpu (begun slotChunk cur ++ [r]) := by
    rw [h.chunkAcc, run_snoc]
  have hlen : (cur ++ [r]).length = cur.length + 1 := List.length_append
  have hmod : (cur.length + 1) % slotChunk = 0 ↔ st.chunkLen + 1 = slotChunk := by
    have hsize : slotChunk = 512 := rfl
    rw [h.chunkLen, hsize]
    omega
  have hblock := begun_append_block (k := slotChunk) cur
  rw [SlotState.chunk]
  split
  · rename_i hfull
    have hzero := hmod.mpr hfull
    have hnil := begun_snoc_full r hzero
    refine ⟨cs ++ [p64Compose host.cpu st.chunkAcc r], ?_, h.windowChunks, h.closedRun, ?_, ?_, ?_⟩
    · rw [← List.append_assoc, ← h.chunkRec]
    · have hall := begun_append_block (k := slotChunk) (cur ++ [r])
      rw [hnil, List.append_nil] at hall
      rw [hacc, run_group h.openRun, ← List.append_assoc, hblock, hall]
    · rw [hnil]
      rfl
    · rw [hlen, hzero]
  · rename_i hopen
    have hne : (cur.length + 1) % slotChunk ≠ 0 := fun hzero => hopen (hmod.mp hzero)
    refine ⟨cs, h.chunkRec, h.windowChunks, h.closedRun, ?_, ?_, ?_⟩
    · rw [h.openRun, hlen, div_succ_of_mod_ne hne,
        List.take_append_of_le_length (Nat.div_mul_le_self _ _)]
    · rw [begun_snoc r hne]
      exact hacc
    · have hsize : slotChunk = 512 := rfl
      rw [hsize] at hne
      change st.chunkLen + 1 = _
      rw [h.chunkLen, hlen, hsize]
      omega

theorem sinceSpans_snoc {past : List P64} (r : P64)
    (h : ((past ++ cur).length + 1) % superSpans ≠ 0) :
    sinceSpans past (cur ++ [r]) = sinceSpans past cur ++ [r] := by
  have hlen : (past ++ (cur ++ [r])).length = (past ++ cur).length + 1 := by
    rw [← List.append_assoc, List.length_append, List.length_singleton]
  have hcross : Crosses past (cur ++ [r]) ↔ Crosses past cur := by
    rw [Crosses, hlen, div_succ_of_mod_ne h, Crosses]
  rw [sinceSpans, sinceSpans]
  by_cases hc : Crosses past cur
  · rw [if_pos hc, if_pos (hcross.mpr hc), ← List.append_assoc, begun_snoc r h]
  · rw [if_neg hc, if_neg fun hc' => hc (hcross.mp hc')]

theorem sinceSpans_full {past : List P64} (r : P64)
    (h : ((past ++ cur).length + 1) % superSpans = 0) : sinceSpans past (cur ++ [r]) = [] := by
  have hlen : (past ++ (cur ++ [r])).length = (past ++ cur).length + 1 := by
    rw [← List.append_assoc, List.length_append, List.length_singleton]
  have hcross : Crosses past (cur ++ [r]) := by
    have hle : past.length ≤ (past ++ cur).length := by
      rw [List.length_append]
      exact Nat.le_add_right _ _
    have hsize : superSpans = 1024 := rfl
    rw [Crosses, hlen, hsize]
    rw [hsize] at h
    omega
  rw [sinceSpans, if_pos hcross, ← List.append_assoc, begun_snoc_full r h]

/-- The super-chunk grid changes nothing but its own. -/
def SuperShape (st st' : SlotState) : Prop :=
  ∃ subRec supers windowSuper subAcc subLen subTotal superPending sinceSuper sinceSuperLen, st' =
    { st with
      tape := { st.tape with subRec := subRec, supers := supers, windowSuper := windowSuper }
      subAcc := subAcc
      subLen := subLen
      subTotal := subTotal
      superPending := superPending
      sinceSuper := sinceSuper
      sinceSuperLen := sinceSuperLen }

theorem SuperShape.trans {st' st'' : SlotState} (h : SuperShape st st')
    (h' : SuperShape st' st'') : SuperShape st st'' := by
  obtain ⟨_, _, _, _, _, _, _, _, _, rfl⟩ := h
  obtain ⟨_, _, _, _, _, _, _, _, _, rfl⟩ := h'
  exact ⟨_, _, _, _, _, _, _, _, _, rfl⟩

theorem append_cur (r : P64) :
    closed.flatten ++ (cur ++ [r]) = closed.flatten ++ cur ++ [r] ∧
      (closed.flatten ++ (cur ++ [r])).length = (closed.flatten ++ cur).length + 1 := by
  have hall : closed.flatten ++ (cur ++ [r]) = closed.flatten ++ cur ++ [r] :=
    (List.append_assoc _ _ _).symm
  refine ⟨hall, ?_⟩
  rw [hall, List.length_append, List.length_singleton]

/-- What the recorded super-chunks cover does not move. -/
theorem SuperGrid.covered (h : SuperGrid host closed cur since sg ss f st) (r : P64) :
    between (closed.flatten.length / superSpans * superSpans) (f * superSpans)
        (closed.flatten ++ (cur ++ [r])) =
      between (closed.flatten.length / superSpans * superSpans) (f * superSpans)
        (closed.flatten ++ cur) := by
  have hstaged : f * 16 ≤ (closed.flatten ++ cur).length / 64 := h.staged
  have hsize : f * superSpans ≤ (closed.flatten ++ cur).length := by
    rw [superSpans]
    omega
  rw [(append_cur r).1, between_snoc hsize]

/-- A span that completes no sub-record. -/
theorem SuperGrid.extend (h : SuperGrid host closed cur since sg ss f st) (r : P64)
    (hopen : ((closed.flatten ++ cur).length + 1) % subSpans ≠ 0) :
    SuperGrid host closed (cur ++ [r]) (since ++ [r]) sg ss f
      { st with
        sinceSuper := p64Compose host.cpu st.sinceSuper r
        sinceSuperLen := st.sinceSuperLen + 1
        subAcc := p64Compose host.cpu st.subAcc r
        subLen := st.subLen + 1 } := by
  obtain ⟨hall, hlen⟩ := @append_cur closed cur r
  have hsubs := @subRecords_snoc host.cpu _ r hopen
  rw [← hall] at hsubs
  refine ⟨h.subRec.trans hsubs.symm, ?_, ?_, hsubs ▸ h.pending, h.low, ?_, h.supers, h.windowSuper,
    h.closedRun, ?_, ?_, ?_⟩
  · rw [hall, begun_snoc r hopen, run_snoc, ← h.subAcc]
  · have hold : st.subLen = (closed.flatten ++ cur).length % 64 := h.subLen
    have hopen' : ((closed.flatten ++ cur).length + 1) % 64 ≠ 0 := hopen
    rw [hlen]
    change st.subLen + 1 = _ % 64
    omega
  · rw [hlen, div_succ_of_mod_ne hopen]
    exact h.staged
  · rw [h.covered]
    exact h.openRun
  · rw [run_snoc, ← h.sinceSuper]
  · rw [List.length_append, ← h.sinceLen]
    rfl

/-- A span that completes a sub-record. -/
theorem SuperGrid.complete (h : SuperGrid host closed cur since sg ss f st) (r : P64)
    (hfull : ((closed.flatten ++ cur).length + 1) % subSpans = 0) :
    SuperGrid host closed (cur ++ [r]) (since ++ [r]) sg ss f
      { st with
        sinceSuper := p64Compose host.cpu st.sinceSuper r
        sinceSuperLen := st.sinceSuperLen + 1
        tape := { st.tape with subRec := st.tape.subRec ++ [p64Compose host.cpu st.subAcc r] }
        superPending := st.superPending ++ [p64Compose host.cpu st.subAcc r]
        subAcc := P64.identity
        subLen := 0
        subTotal := st.subTotal + 1 } := by
  obtain ⟨hall, hlen⟩ := @append_cur closed cur r
  have hsubs : subRecords host.cpu (closed.flatten ++ (cur ++ [r])) =
      st.tape.subRec ++ [p64Compose host.cpu st.subAcc r] := by
    rw [hall, subRecords_snoc_full r hfull, h.subRec, h.subAcc, run_snoc]
  have hstaged : f * superSubs ≤ st.tape.subRec.length := by
    rw [h.subRec, subRecords_length]
    exact h.staged
  refine ⟨hsubs.symm, ?_, ?_, ?_, h.low, ?_, h.supers, h.windowSuper, h.closedRun, ?_, ?_, ?_⟩
  · rw [hall, begun_snoc_full r hfull, run_nil]
  · rw [hlen, hfull]
  · rw [hsubs, List.drop_append_of_le_length hstaged, h.subRec, ← h.pending]
  · rw [hlen]
    exact h.staged.trans (Nat.div_le_div_right (Nat.le_succ _))
  · rw [h.covered]
    exact h.openRun
  · rw [run_snoc, ← h.sinceSuper]
  · rw [List.length_append, ← h.sinceLen]
    rfl

/-- The boundary accumulator starts afresh. -/
theorem SuperGrid.reset (h : SuperGrid host closed cur since sg ss f st) :
    SuperGrid host closed cur [] sg ss f
      { st with sinceSuper := P64.identity, sinceSuperLen := 0 } :=
  ⟨h.subRec, h.subAcc, h.subLen, h.pending, h.low, h.staged, h.supers, h.windowSuper, h.closedRun,
    h.openRun, rfl, rfl⟩

theorem SuperGrid.pending_length (h : SuperGrid host closed cur since sg ss f st) :
    st.superPending.length = (closed.flatten ++ cur).length / subSpans - f * superSubs := by
  rw [h.pending, List.length_drop, subRecords_length]

/-- A whole super-chunk of staged leaves is recorded. -/
theorem SuperGrid.record (h : SuperGrid host closed cur since sg ss f st)
    (hwhole : superSubs ≤ st.superPending.length) :
    SuperGrid host closed cur since sg
      (ss ++ [superFoldSerial host.cpu (st.superPending.take superSubs)]) (f + 1)
      (st.recordSuper host) := by
  have hnext : (f + 1) * superSubs = f * superSubs + superSubs := Nat.succ_mul f superSubs
  have hcount : f * superSubs + superSubs ≤ (closed.flatten ++ cur).length / subSpans := by
    rw [h.pending_length] at hwhole
    have hpos : 0 < superSubs := by decide
    omega
  have hlow := Nat.mul_le_mul_right superSpans h.low
  have hstep : f * superSpans ≤ (f + 1) * superSpans := Nat.mul_le_mul_right _ (Nat.le_succ f)
  have hfrom : f * superSubs * subSpans = f * superSpans := Nat.mul_assoc f 16 64
  have hto : (f * superSubs + superSubs) * subSpans = (f + 1) * superSpans := by
    rw [← hnext, Nat.mul_assoc]
    rfl
  have hend : f * superSpans ≤ (closed.flatten ++ cur).length := by
    rw [← hfrom]
    exact (Nat.mul_le_mul_right _ h.staged).trans (Nat.div_mul_le_self _ _)
  have hroot : superFoldSerial host.cpu (st.superPending.take superSubs) =
      composeSpanRun host.cpu
        (between (f * superSpans) ((f + 1) * superSpans) (closed.flatten ++ cur)) := by
    rw [h.pending, List.take_drop, ← hfrom, ← hto]
    exact run_subRecords (Nat.le_add_right _ _) hcount
  refine ⟨h.subRec, h.subAcc, h.subLen, ?_, h.low.trans (Nat.le_succ f), ?_, ?_, h.windowSuper,
    h.closedRun, ?_, h.sinceSuper, h.sinceLen⟩
  · rw [hnext, ← List.drop_drop, ← h.pending]
    rfl
  · rw [hnext]
    exact hcount
  · rw [← List.append_assoc, ← h.supers]
    rfl
  · rw [hroot, run_group h.openRun, between_append hlow hstep hend]

/-- A full pair is recorded. -/
theorem SuperGrid.pair (h : SuperGrid host closed cur since sg ss f st)
    (hpair : st.superPending.length = 2 * superSubs) :
    ∃ ss', SuperGrid host closed cur [] sg ss' (f + 2)
      { st with
        tape := { st.tape with
          supers := st.tape.supers ++ [superFoldSerial host.cpu (st.superPending.take superSubs),
            superFoldSerial host.cpu ((st.superPending.drop superSubs).take superSubs)] }
        superPending := []
        sinceSuper := P64.identity
        sinceSuperLen := 0 } := by
  have hsubs : superSubs = 16 := rfl
  have hfirst := h.record (by rw [hpair, hsubs]; decide)
  have hsecond := (hfirst.record (by
    change _ ≤ (st.superPending.drop superSubs).length
    rw [List.length_drop, hpair, hsubs])).reset
  have hnil : (st.superPending.drop superSubs).drop superSubs = [] := by
    rw [List.drop_drop]
    exact List.drop_eq_nil_of_le (by rw [hpair, Nat.two_mul])
  refine ⟨_, hsecond.subRec, hsecond.subAcc, hsecond.subLen, hnil.symm.trans hsecond.pending,
    hsecond.low, hsecond.staged, ?_, hsecond.windowSuper, hsecond.closedRun, hsecond.openRun, rfl,
    rfl⟩
  exact (List.append_assoc _ [_] [_]).symm.trans hsecond.supers

/-- Whole super-chunks are looked at behind every sub-record. -/
theorem SuperGrid.pairUp {r : P64}
    (h : SuperGrid host closed (cur ++ [r]) (sinceSpans closed.flatten cur ++ [r]) sg ss f st)
    (hstaged : f * superSubs ≤ (closed.flatten ++ cur).length / subSpans)
    (hroom : (closed.flatten ++ cur).length / subSpans < (f + 2) * superSubs)
    (hfull : ((closed.flatten ++ cur).length + 1) % subSpans = 0) :
    ∃ st' ss' f', st.pairUp host = some st' ∧ SuperShape st st' ∧
      SuperPart host closed (cur ++ [r]) sg ss' f' st' := by
  have hlen := (@append_cur closed cur r).2
  have hsubs : superSubs = 16 := rfl
  have hspans : superSpans = 1024 := rfl
  have hcount : (closed.flatten ++ (cur ++ [r])).length / subSpans =
      (closed.flatten ++ cur).length / subSpans + 1 := by
    rw [hlen]
    exact Nat.succ_div_of_dvd (Nat.dvd_of_mod_eq_zero hfull)
  have hpending := h.pending_length
  rw [hcount, hsubs] at hpending
  rw [hsubs] at hroom hstaged
  have hnumber : (closed.flatten ++ cur).length + 1 =
      64 * ((closed.flatten ++ cur).length / subSpans + 1) := by
    have hsize : subSpans = 64 := rfl
    rw [hsize] at hfull ⊢
    omega
  rw [SlotState.pairUp]
  by_cases hone : st.superPending.length = superSubs
  · have hzero : ((closed.flatten ++ cur).length + 1) % superSpans = 0 := by
      rw [hsubs] at hone
      rw [hspans]
      omega
    refine ⟨_, ss, f, if_pos hone, ⟨_, _, _, _, _, _, _, _, _, rfl⟩, ?_, ?_⟩
    · rw [sinceSpans_full r hzero]
      exact h.reset
    · rw [hcount, hsubs]
      rw [hsubs] at hone
      omega
  · rw [if_neg hone]
    by_cases htwo : st.superPending.length = 2 * superSubs
    · have hzero : ((closed.flatten ++ cur).length + 1) % superSpans = 0 := by
        rw [hsubs] at htwo
        rw [hspans]
        omega
      rw [if_pos htwo, superFoldPair_eq htwo]
      obtain ⟨ss', hgrid⟩ := h.pair htwo
      refine ⟨_, ss', f + 2, rfl, ⟨_, _, _, _, _, _, _, _, _, rfl⟩, ?_, ?_⟩
      · rw [sinceSpans_full r hzero]
        exact hgrid
      · rw [hcount, hsubs]
        omega
    · have hopen : ((closed.flatten ++ cur).length + 1) % superSpans ≠ 0 := by
        rw [hsubs] at hone htwo
        rw [hspans]
        omega
      refine ⟨st, ss, f, if_neg htwo, ⟨_, _, _, _, _, _, _, _, _, rfl⟩, ?_, ?_⟩
      · rw [sinceSpans_snoc r hopen]
        exact h
      · rw [hcount, hsubs]
        rw [hsubs] at htwo
        omega

theorem SuperPart.sub (h : SuperPart host closed cur sg ss f st) (r : P64) :
    ∃ st' ss' f', st.sub host r = some st' ∧ SuperShape st st' ∧
      SuperPart host closed (cur ++ [r]) sg ss' f' st' := by
  have hlen := (@append_cur closed cur r).2
  have hcase : st.subLen + 1 = subSpans ↔ ((closed.flatten ++ cur).length + 1) % subSpans = 0 := by
    have hsize : subSpans = 64 := rfl
    rw [h.grid.subLen, hsize]
    omega
  rw [SlotState.sub]
  by_cases hfull : st.subLen + 1 = subSpans
  · obtain ⟨st', ss', f', hrun, hshape, hpart⟩ :=
      (h.grid.complete r (hcase.mp hfull)).pairUp h.grid.staged h.room (hcase.mp hfull)
    refine ⟨st', ss', f', ?_, SuperShape.trans ⟨_, _, _, _, _, _, _, _, _, rfl⟩ hshape, hpart⟩
    rw [if_pos hfull]
    exact hrun
  · have hmod : ((closed.flatten ++ cur).length + 1) % subSpans ≠ 0 := fun h => hfull (hcase.mpr h)
    have hsuper : ((closed.flatten ++ cur).length + 1) % superSpans ≠ 0 := by
      have hspans : superSpans = 1024 := rfl
      have hmod' : ((closed.flatten ++ cur).length + 1) % 64 ≠ 0 := hmod
      rw [hspans]
      omega
    refine ⟨_, ss, f, if_neg hfull, ⟨_, _, _, _, _, _, _, _, _, rfl⟩, ?_, ?_⟩
    · rw [sinceSpans_snoc r hsuper]
      exact h.grid.extend r hmod
    · rw [hlen, div_succ_of_mod_ne hmod]
      exact h.room

/-! ## The end of a window -/

theorem flushChunk_shape (st : SlotState) : ChunkShape st st.flushChunk := by
  rw [SlotState.flushChunk]
  split
  · exact ⟨_, _, _, rfl⟩
  · exact ⟨st.tape.chunkRec, _, _, rfl⟩

/-- Behind the flush the chunk grid covers the window. -/
theorem ChunkPart.flush (h : ChunkPart host closed cur cg cs st) :
    ∃ cs', st.flushChunk.tape.chunkRec = cg.flatten ++ cs' ∧
      composeSpanRun host.cpu cs' = composeSpanRun host.cpu cur ∧
      st.flushChunk.chunkAcc = P64.identity ∧ st.flushChunk.chunkLen = 0 := by
  have hblock := begun_append_block (k := slotChunk) cur
  rw [SlotState.flushChunk]
  by_cases hpos : 0 < st.chunkLen
  · rw [if_pos hpos]
    refine ⟨cs ++ [st.chunkAcc], ?_, ?_, rfl, rfl⟩
    · rw [h.chunkRec, List.append_assoc]
    · rw [h.chunkAcc, run_group h.openRun, hblock]
  · rw [if_neg hpos]
    have hzero : st.chunkLen = 0 := Nat.le_zero.mp (Nat.le_of_not_lt hpos)
    have hnil : begun slotChunk cur = [] := by
      apply List.eq_nil_of_length_eq_zero
      rw [begun_length, ← h.chunkLen, hzero]
    rw [hnil, List.append_nil] at hblock
    refine ⟨cs, h.chunkRec, ?_, ?_, hzero⟩
    · rw [h.openRun, hblock]
    · rw [h.chunkAcc, hnil, run_nil]

/-- The flush records every whole super-chunk. -/
theorem SuperPart.flush (h : SuperPart host closed cur sg ss f st) :
    SuperShape st (st.flushSupers host) ∧ ∃ ss', SuperPart host closed cur sg ss'
      ((closed.flatten ++ cur).length / superSpans) (st.flushSupers host) := by
  have hsubs : superSubs = 16 := rfl
  have hspans : superSpans = 1024 := rfl
  induction st using SlotState.flushSupers.induct host generalizing ss f with
  | case1 st hwhole ih =>
      have hnext := h.grid.record hwhole
      have hroom : (closed.flatten ++ cur).length / subSpans < (f + 1 + 2) * superSubs := by
        exact h.room.trans_le (Nat.mul_le_mul_right _ (Nat.le_succ _))
      obtain ⟨hshape, hpart⟩ := ih ⟨hnext, hroom⟩
      rw [SlotState.flushSupers, if_pos hwhole]
      exact ⟨SuperShape.trans ⟨_, _, _, _, _, _, _, _, _, rfl⟩ hshape, hpart⟩
  | case2 st hless =>
      have hall : (closed.flatten ++ cur).length / superSpans = f := by
        have hpending := h.grid.pending_length
        have hstaged := h.grid.staged
        have hsize : subSpans = 64 := rfl
        rw [hsubs] at hless hstaged
        rw [hsubs, hsize] at hpending
        rw [hsize] at hstaged
        rw [hspans]
        omega
      rw [SlotState.flushSupers, if_neg hless, hall]
      exact ⟨⟨_, _, _, _, _, _, _, _, _, rfl⟩, ss, h⟩

/-- The recorded super-chunks and the boundary cover what the window's records cover. -/
theorem covered_append_since (past cur : List P64) :
    between (past.length / superSpans * superSpans)
        ((past ++ cur).length / superSpans * superSpans) (past ++ cur) ++ sinceSpans past cur =
      superCover past cur := by
  have hle : past.length / superSpans * superSpans ≤
      (past ++ cur).length / superSpans * superSpans := by
    rw [List.length_append]
    exact Nat.mul_le_mul_right _ (Nat.div_le_div_right (Nat.le_add_right _ _))
  rw [sinceSpans, superCover]
  by_cases hcross : Crosses past cur
  · rw [if_pos hcross, if_pos hcross, begun, between_drop hle (Nat.div_mul_le_self _ _)]
  · rw [if_neg hcross, if_neg hcross, not_not.mp hcross, between_self, List.nil_append]

/-- The boundary record ends the window's records on the super-chunk grid. -/
theorem SuperPart.close
    (h : SuperPart host closed cur sg ss ((closed.flatten ++ cur).length / superSpans) st) :
    SuperShape st st.boundary.pushFrontier ∧ ∃ ss', SuperPart host (closed ++ [cur]) [] (sg ++ [ss'])
      [] ((closed.flatten ++ cur).length / superSpans) st.boundary.pushFrontier := by
  have hall : (closed ++ [cur]).flatten ++ [] = closed.flatten ++ cur := by
    rw [List.append_nil, List.flatten_append, List.flatten_singleton]
  have hclosed (ss' : List P64) (hrun : composeSpanRun host.cpu ss' =
      composeSpanRun host.cpu (superCover closed.flatten cur)) :
      (sg ++ [ss']).map (composeSpanRun host.cpu) =
        withPast (fun past cur => composeSpanRun host.cpu (superCover past cur))
          (closed ++ [cur]) := by
    rw [List.map_append, h.grid.closedRun, withPast_snoc, List.map_singleton, hrun]
  have hsince : sinceSpans (closed ++ [cur]).flatten [] = [] := by
    have hstay : ¬ Crosses (closed ++ [cur]).flatten [] := by
      rw [Crosses, List.append_nil]
      exact not_not.mpr rfl
    rw [sinceSpans, if_neg hstay]
  have hself : composeSpanRun host.cpu [] = composeSpanRun host.cpu (between
      ((closed ++ [cur]).flatten.length / superSpans * superSpans)
      ((closed.flatten ++ cur).length / superSpans * superSpans)
      ((closed ++ [cur]).flatten ++ [])) := by
    rw [hall, ← List.append_nil (closed ++ [cur]).flatten, hall, between_self]
  have hlow : (closed ++ [cur]).flatten.length / superSpans ≤
      (closed.flatten ++ cur).length / superSpans := by
    rw [← List.append_nil (closed ++ [cur]).flatten, hall]
  have hcover := covered_append_since closed.flatten cur
  rw [SlotState.boundary]
  by_cases hpos : 0 < st.sinceSuperLen
  · rw [if_pos hpos]
    refine ⟨⟨_, _, _, _, _, _, _, _, _, rfl⟩, ss ++ [st.sinceSuper], ⟨?_, ?_, ?_, ?_, hlow, ?_, ?_, ?_,
      ?_, hself, ?_, ?_⟩, ?_⟩
    · rw [hall]
      exact h.grid.subRec
    · rw [hall]
      exact h.grid.subAcc
    · rw [hall]
      exact h.grid.subLen
    · rw [hall]
      exact h.grid.pending
    · rw [hall]
      exact h.grid.staged
    · rw [List.append_nil, List.flatten_append, List.flatten_singleton, ← List.append_assoc,
        ← h.grid.supers]
      rfl
    · rw [frontiers_snoc, ← List.append_assoc, ← h.grid.supers, ← h.grid.windowSuper]
      rfl
    · apply hclosed
      rw [h.grid.sinceSuper, run_group h.grid.openRun, hcover]
    · rw [hsince]
      rfl
    · rw [hsince]
      rfl
    · rw [hall]
      exact h.room
  · rw [if_neg hpos]
    have hzero : st.sinceSuperLen = 0 := Nat.le_zero.mp (Nat.le_of_not_lt hpos)
    have hnil : sinceSpans closed.flatten cur = [] :=
      List.eq_nil_of_length_eq_zero (h.grid.sinceLen.symm.trans hzero)
    rw [hnil, List.append_nil] at hcover
    refine ⟨⟨_, _, _, _, _, _, _, _, _, rfl⟩, ss, ⟨?_, ?_, ?_, ?_, hlow, ?_, ?_, ?_, ?_, hself, ?_, ?_⟩,
      ?_⟩
    · rw [hall]
      exact h.grid.subRec
    · rw [hall]
      exact h.grid.subAcc
    · rw [hall]
      exact h.grid.subLen
    · rw [hall]
      exact h.grid.pending
    · rw [hall]
      exact h.grid.staged
    · rw [List.append_nil, List.flatten_append, List.flatten_singleton, ← h.grid.supers]
      rfl
    · rw [frontiers_snoc, ← h.grid.supers, ← h.grid.windowSuper]
      rfl
    · apply hclosed
      rw [h.grid.openRun, hcover]
    · rw [hsince]
      exact h.grid.sinceSuper.trans (congrArg _ hnil)
    · rw [hsince]
      exact hzero
    · rw [hall]
      exact h.room

/-! ## The slot -/

/-- What a slot holds behind its closed windows and the spans of the open one. -/
structure SlotRecorded (host : Host) (closed : List (List P64)) (cur : List P64)
    (st : SlotState) : Prop where
  window : WindowPart host closed cur st
  chunks : ∃ cg cs, ChunkPart host closed cur cg cs st
  supers : ∃ sg ss f, SuperPart host closed cur sg ss f st

/-- What a slot holds between two windows. -/
structure SlotClosed (host : Host) (closed : List (List P64)) (st : SlotState) : Prop where
  window : WindowPart host closed [] st
  chunks : ∃ cg, ChunkPart host closed [] cg [] st
  supers : ∃ sg f, SuperPart host closed [] sg [] f st

theorem SlotClosed.recorded (h : SlotClosed host closed st) : SlotRecorded host closed [] st := by
  obtain ⟨cg, hchunks⟩ := h.chunks
  obtain ⟨sg, f, hsupers⟩ := h.supers
  exact ⟨h.window, ⟨cg, [], hchunks⟩, sg, [], f, hsupers⟩

theorem SlotClosed.new : SlotClosed host [] SlotState.new := by
  have hhash : hashApplyP64 host.cpu spanSeed P64.identity = spanSeed :=
    BitVec.xor_zero.trans (mulmod_one host.cpu spanSeed)
  exact ⟨⟨rfl, rfl, hhash.symm⟩, ⟨[], rfl, rfl, rfl, rfl, rfl, rfl⟩,
    [], 0, ⟨rfl, rfl, rfl, rfl, Nat.le_refl _, Nat.le_refl _, rfl, rfl, rfl, rfl, rfl, rfl⟩,
    by decide⟩

variable {st' : SlotState}

theorem WindowPart.of_chunkShape (h : WindowPart host closed cur st) (hshape : ChunkShape st st') :
    WindowPart host closed cur st' := by
  obtain ⟨_, _, _, rfl⟩ := hshape
  exact ⟨h.windowRec, h.winAcc, h.winH⟩

theorem WindowPart.of_superShape (h : WindowPart host closed cur st) (hshape : SuperShape st st') :
    WindowPart host closed cur st' := by
  obtain ⟨_, _, _, _, _, _, _, _, _, rfl⟩ := hshape
  exact ⟨h.windowRec, h.winAcc, h.winH⟩

theorem ChunkPart.of_superShape (h : ChunkPart host closed cur cg cs st)
    (hshape : SuperShape st st') : ChunkPart host closed cur cg cs st' := by
  obtain ⟨_, _, _, _, _, _, _, _, _, rfl⟩ := hshape
  exact ⟨h.chunkRec, h.windowChunks, h.closedRun, h.openRun, h.chunkAcc, h.chunkLen⟩

theorem SuperPart.of_chunkShape (h : SuperPart host closed cur sg ss f st)
    (hshape : ChunkShape st st') : SuperPart host closed cur sg ss f st' := by
  obtain ⟨_, _, _, rfl⟩ := hshape
  have g := h.grid
  exact ⟨⟨g.subRec, g.subAcc, g.subLen, g.pending, g.low, g.staged, g.supers, g.windowSuper,
    g.closedRun, g.openRun, g.sinceSuper, g.sinceLen⟩, h.room⟩

/-- A span is recorded, and no check of the pair kernel fails. -/
theorem SlotRecorded.span (h : SlotRecorded host closed cur st) (r : P64) (msgCount : BitVec 32) :
    ∃ st', st.span host r msgCount = some st' ∧ SlotRecorded host closed (cur ++ [r]) st' := by
  obtain ⟨cg, cs, hchunks⟩ := h.chunks
  obtain ⟨sg, ss, f, hsupers⟩ := h.supers
  have g := hsupers.grid
  have hchunks' : ChunkPart host closed cur cg cs (st.window host r msgCount) :=
    ⟨hchunks.chunkRec, hchunks.windowChunks, hchunks.closedRun, hchunks.openRun, hchunks.chunkAcc,
      hchunks.chunkLen⟩
  have hsupers' : SuperPart host closed cur sg ss f (st.window host r msgCount) :=
    ⟨⟨g.subRec, g.subAcc, g.subLen, g.pending, g.low, g.staged, g.supers, g.windowSuper,
      g.closedRun, g.openRun, g.sinceSuper, g.sinceLen⟩, hsupers.room⟩
  have hshape := @chunk_shape host r (st.window host r msgCount)
  obtain ⟨cs', hchunk⟩ := hchunks'.chunk r
  obtain ⟨st', ss', f', hrun, hsuper, hpart⟩ := (hsupers'.of_chunkShape hshape).sub r
  exact ⟨st', hrun, ((h.window.window r msgCount).of_chunkShape hshape).of_superShape hsuper,
    ⟨cg, cs', hchunk.of_superShape hsuper⟩, sg, ss', f', hpart⟩

/-- A window ends: the two paths to the hash agree, and both grids are closed. -/
theorem SlotRecorded.close (h : SlotRecorded host closed cur st) :
    ∃ st', st.close host = some st' ∧ SlotClosed host (closed ++ [cur]) st' := by
  obtain ⟨cg, cs, hchunks⟩ := h.chunks
  obtain ⟨sg, ss, f, hsupers⟩ := h.supers
  obtain ⟨cs', hrec, hcover, hacc, hlen⟩ := hchunks.flush
  have hshape := flushChunk_shape st
  have hfronts : st.flushChunk.tape.windowChunks = frontiers cg := by
    obtain ⟨_, _, _, heq⟩ := hshape
    rw [heq]
    exact hchunks.windowChunks
  obtain ⟨hflushed, ss', hpart⟩ := (hsupers.of_chunkShape hshape).flush
  obtain ⟨hbounded, ss'', hclosed⟩ := hpart.close
  have hgrids := hflushed.trans hbounded
  have hwindow := (h.window.of_chunkShape hshape).of_superShape hgrids
  obtain ⟨_, _, _, _, _, _, _, _, _, hst⟩ := hgrids
  rw [SlotState.close]
  rw [hst] at hclosed hwindow ⊢
  have hhash := hwindow.winH
  rw [← hwindow.winAcc] at hhash
  have g := hclosed.grid
  refine ⟨_, if_pos hhash, ⟨?_, rfl, ?_⟩, ⟨cg ++ [cs'], ?_, ?_, ?_, rfl, hacc, hlen⟩, sg ++ [ss''],
    _, ⟨g.subRec, g.subAcc, g.subLen, g.pending, g.low, g.staged, g.supers, g.windowSuper,
      g.closedRun, g.openRun, g.sinceSuper, g.sinceLen⟩, hclosed.room⟩
  · rw [List.map_append, ← hwindow.windowRec, List.map_singleton, ← hwindow.winAcc]
    rfl
  · exact (BitVec.xor_zero.trans (mulmod_one host.cpu spanSeed)).symm
  · rw [List.append_nil, List.flatten_append, List.flatten_singleton, ← hrec]
    rfl
  · rw [frontiers_snoc, ← hrec, ← hfronts]
    rfl
  · rw [List.map_append, List.map_append, hchunks.closedRun, List.map_singleton, hcover,
      List.map_singleton]

end HftProj.Testkit.FleetTape
