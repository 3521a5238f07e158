import HftProj.Lib.Fallible
import HftProj.Testkit.FleetGrids

/-!
# Replaying the slot tapes

The construction of any stream keeps what every slot holds, so each window's records are found
between its frontiers. An owner that replays them composes the spans that the records cover,
which are the window's own on the chunk grid, and on the super-chunk grid unless the window
completes a super-chunk that an earlier one began.
-/

namespace HftProj.Testkit.FleetTape

open HftProj.Lib HftProj.Lib.AffineMaps
open SpanField SuperFold

variable {n : ℕ}

/-! ## The construction -/

/-- A span of the stream: its body and its message count. -/
abbrev Span := List UInt8 × BitVec 32

/-- The records of a slot among the spans. -/
def slotRecords (host : Host) (demux : List UInt8 → Fin n) (s : Fin n) (spans : List Span) :
    List P64 :=
  (spans.filter fun span => demux span.1 = s).map fun span => spanRecord host span.1 span.2

/-- The records of a slot, window by window. -/
def slotWindows (host : Host) (demux : List UInt8 → Fin n) (s : Fin n)
    (windows : List (List (List Span))) : List (List P64) :=
  windows.map fun window => slotRecords host demux s window.flatten

/-- Every slot holds its windows and its spans of the open one. -/
def SinkRecorded (host : Host) (demux : List UInt8 → Fin n) (closed : List (List (List Span)))
    (spans : List Span) (σ : FleetSink n) : Prop :=
  ∀ s, SlotRecorded host (slotWindows host demux s closed) (slotRecords host demux s spans)
    (σ.slots s)

/-- Every slot holds its windows. -/
def SinkClosed (host : Host) (demux : List UInt8 → Fin n) (closed : List (List (List Span)))
    (σ : FleetSink n) : Prop :=
  ∀ s, SlotClosed host (slotWindows host demux s closed) (σ.slots s)

variable {host : Host} {demux : List UInt8 → Fin n} {closed : List (List (List Span))}
  {spans : List Span} {σ : FleetSink n}

theorem slotRecords_snoc (s : Fin n) (spans : List Span) (span : Span) :
    slotRecords host demux s (spans ++ [span]) =
      if demux span.1 = s then slotRecords host demux s spans ++ [spanRecord host span.1 span.2]
      else slotRecords host demux s spans := by
  by_cases hslot : demux span.1 = s
  · rw [if_pos hslot]
    simp [slotRecords, hslot]
  · rw [if_neg hslot]
    simp [slotRecords, hslot]

theorem slotRecords_append (s : Fin n) (spans spans' : List Span) :
    slotRecords host demux s (spans ++ spans') =
      slotRecords host demux s spans ++ slotRecords host demux s spans' := by
  rw [slotRecords, List.filter_append, List.map_append, slotRecords, slotRecords]

theorem slotWindows_flatten (s : Fin n) (windows : List (List (List Span))) :
    (slotWindows host demux s windows).flatten =
      slotRecords host demux s windows.flatten.flatten := by
  induction windows with
  | nil => rfl
  | cons window windows ih =>
      rw [slotWindows, List.map_cons, List.flatten_cons, ← slotWindows, ih, List.flatten_cons,
        List.flatten_append, slotRecords_append]

theorem SinkClosed.new : SinkClosed host demux [] (FleetSink.new n) := fun _ => SlotClosed.new

theorem SinkRecorded.span (h : SinkRecorded host demux closed spans σ) (span : Span) :
    ∃ σ', constructSpan host demux σ span = some σ' ∧
      SinkRecorded host demux closed (spans ++ [span]) σ' ∧ σ'.oracle = σ.oracle := by
  obtain ⟨st, hrun, hst⟩ := (h (demux span.1)).span (spanRecord host span.1 span.2) span.2
  rw [constructSpan, hrun]
  refine ⟨_, rfl, ?_, rfl⟩
  intro s
  rw [slotRecords_snoc]
  by_cases hslot : demux span.1 = s
  · rw [if_pos hslot, ← hslot]
    change SlotRecorded _ _ _ (Function.update σ.slots (demux span.1) st (demux span.1))
    rw [Function.update_self]
    exact hst
  · rw [if_neg hslot]
    change SlotRecorded _ _ _ (Function.update σ.slots (demux span.1) st s)
    rw [Function.update_of_ne (Ne.symm hslot)]
    exact h s

theorem SinkRecorded.batch (h : SinkRecorded host demux closed spans σ) (batch : List Span) :
    ∃ σ', constructBatch host demux σ batch = some σ' ∧
      SinkRecorded host demux closed (spans ++ batch) σ' ∧ σ'.oracle = σ.oracle := by
  obtain ⟨σ', hrun, hrec, horacle⟩ := Fallible.foldlM_pure (f := constructSpan host demux)
    (P := fun done σ' => SinkRecorded host demux closed (spans ++ done) σ' ∧
      σ'.oracle = σ.oracle) (l := batch)
    ⟨by rwa [List.append_nil], rfl⟩ (by
      rintro pre span post σ₁ - ⟨hrec, horacle⟩
      obtain ⟨σ₂, hone, hnext, hsame⟩ := hrec.span span
      exact ⟨σ₂, hone, by rwa [← List.append_assoc], hsame.trans horacle⟩)
  refine ⟨sealBatchSched σ', ?_, hrec, horacle⟩
  rw [constructBatch, hrun]
  rfl

/-- The loop over the slots closes each once. -/
theorem SinkRecorded.close (h : SinkRecorded host demux closed spans σ)
    {window : List (List Span)} (hspans : window.flatten = spans) :
    ∃ σ', constructWindowClose host σ = some σ' ∧
      SinkClosed host demux (closed ++ [window]) σ' ∧
      σ'.oracle.length = σ.oracle.length + 1 := by
  have hwindows (s : Fin n) : slotWindows host demux s (closed ++ [window]) =
      slotWindows host demux s closed ++ [slotRecords host demux s spans] := by
    rw [slotWindows, List.map_append, List.map_singleton, hspans, slotWindows]
  obtain ⟨acc, hrun, hall⟩ := Fallible.foldlM_pure (f := closeSlot host)
    (s := ⟨σ.slots, Dig.identity, 0, 0⟩) (l := List.finRange n)
    (P := fun done acc => ∀ s, if s ∈ done
      then SlotClosed host (slotWindows host demux s (closed ++ [window])) (acc.slots s)
      else SlotRecorded host (slotWindows host demux s closed) (slotRecords host demux s spans)
        (acc.slots s))
    (fun s => by
      rw [if_neg List.not_mem_nil]
      exact h s) (by
      intro pre s post acc hsplit hinv
      have hfresh : s ∉ pre := by
        have hnodup := List.nodup_finRange n
        rw [hsplit] at hnodup
        exact fun hmem => (List.nodup_append.mp hnodup).2.2 s hmem s List.mem_cons_self rfl
      have hslot := hinv s
      rw [if_neg hfresh] at hslot
      obtain ⟨st, hclose, hst⟩ := hslot.close
      refine ⟨⟨Function.update acc.slots s st, acc.d.accum (acc.slots s).winAcc,
        acc.count + (acc.slots s).winMsgs, acc.msgHash ^^^ (acc.slots s).winH⟩, ?_, ?_⟩
      · rw [closeSlot, hclose]
        rfl
      · intro s'
        by_cases hs : s' = s
        · rw [hs, if_pos (List.mem_append_right pre (List.mem_singleton_self s)), hwindows]
          change SlotClosed _ _ (Function.update acc.slots s st s)
          rw [Function.update_self]
          exact hst
        · have hmem : s' ∈ pre ++ [s] ↔ s' ∈ pre := by
            rw [List.mem_append, List.mem_singleton]
            exact or_iff_left hs
          change if _ then SlotClosed _ _ (Function.update acc.slots s st s')
            else SlotRecorded _ _ _ (Function.update acc.slots s st s')
          rw [Function.update_of_ne hs]
          simp only [hmem]
          exact hinv s')
  rw [constructWindowClose, hrun]
  refine ⟨_, rfl, ?_, List.length_append⟩
  intro s
  have hslot := hall s
  rw [if_pos (List.mem_finRange s)] at hslot
  exact hslot

theorem SinkClosed.window (h : SinkClosed host demux closed σ)
    (window : List (List Span)) :
    ∃ σ', constructWindow host demux σ window = some σ' ∧
      SinkClosed host demux (closed ++ [window]) σ' ∧
      σ'.oracle.length = σ.oracle.length + 1 := by
  obtain ⟨σ₁, hrun, hrec, horacle⟩ := Fallible.foldlM_pure (f := constructBatch host demux)
    (P := fun done σ' => SinkRecorded host demux closed done.flatten σ' ∧
      σ'.oracle = σ.oracle) (l := window)
    ⟨fun s => (h s).recorded, rfl⟩ (by
      rintro pre batch post σ₁ - ⟨hrec, horacle⟩
      obtain ⟨σ₂, hone, hnext, hsame⟩ := hrec.batch batch
      refine ⟨σ₂, hone, ?_, hsame.trans horacle⟩
      rwa [List.flatten_append, List.flatten_singleton])
  obtain ⟨σ', hclose, hnext, hlen⟩ := hrec.close rfl
  refine ⟨σ', ?_, hnext, ?_⟩
  · rw [constructWindow, hrun]
    exact hclose
  · rw [hlen, horacle]

/-- The construction of a stream never fails a check, and every slot holds its windows. -/
theorem construct_recorded (host : Host) (demux : List UInt8 → Fin n)
    (windows : List (List (List Span))) :
    ∃ σ, construct host demux windows = some σ ∧ SinkClosed host demux windows σ ∧
      σ.oracle.length = windows.length := by
  obtain ⟨σ, hrun, hrec, hlen⟩ := Fallible.foldlM_pure (f := constructWindow host demux)
    (s := FleetSink.new n) (l := windows)
    (P := fun done σ => SinkClosed host demux done σ ∧ σ.oracle.length = done.length)
    ⟨SinkClosed.new, rfl⟩ (by
      rintro pre window post σ₁ - ⟨hrec, hlen⟩
      obtain ⟨σ₂, hone, hnext, hlen'⟩ := hrec.window window
      refine ⟨σ₂, hone, hnext, ?_⟩
      rw [hlen', hlen, List.length_append, List.length_singleton])
  exact ⟨σ, hrun, hrec, hlen⟩

/-! ## The owners -/

/-- A grid whose records fall into one group for each window. -/
structure Grouped (recs : List P64) (fronts : List ℕ) (gs : List (List P64)) : Prop where
  recs : recs = gs.flatten
  fronts : fronts = frontiers gs

/-- The owner behind the events up to `b`, `base` events into its run. -/
theorem consume_between (recs : List P64) {base a b : ℕ} (o : Owner) (ho : o.evCon = base + a)
    (hab : a ≤ b) (hb : b ≤ recs.length) (hbase : base % recs.length = 0) :
    o.consume host recs (base + b) =
      { o with
        evCon := base + b
        acc := (between a b recs).foldl (p64Compose host.cpu) o.acc
        h := (between a b recs).foldl (fun h r => mulmod host.cpu h r.c ^^^ r.v) o.h } := by
  induction hk : b - a generalizing o a with
  | zero =>
      have heq : a = b := Nat.le_antisymm hab (Nat.le_of_sub_eq_zero hk)
      have hdone : ¬ o.evCon < base + b := by
        rw [ho, heq]
        exact Nat.lt_irrefl _
      rw [Owner.consume, if_neg hdone, heq, between_self, ← heq, ← ho]
      rfl
  | succ k ih =>
      have hlt : a < b := Nat.lt_of_sub_pos (hk ▸ Nat.succ_pos k)
      have hin : a < recs.length := hlt.trans_le hb
      have hindex : (base + a) % max recs.length 1 = a := by
        rw [Nat.max_eq_left (Nat.succ_le_of_lt (Nat.zero_lt_of_lt hin)), Nat.add_mod, hbase,
          Nat.zero_add, Nat.mod_mod, Nat.mod_eq_of_lt hin]
      have hread : o.event host recs =
          { o with
            acc := p64Compose host.cpu o.acc recs[a]
            h := mulmod host.cpu o.h recs[a].c ^^^ recs[a].v
            evCon := base + (a + 1) } := by
        rw [Owner.event, ho, hindex, ← List.getElem_eq_getD (h := hin) P64.identity]
        rfl
      have hsplit : between a b recs = recs[a] :: between (a + 1) b recs := by
        have htake : a < (recs.take b).length := by
          rw [List.length_take]
          exact lt_min hlt hin
        rw [between, List.drop_eq_getElem_cons htake, List.getElem_take, between]
      have hmore : o.evCon < base + b := by
        rw [ho]
        exact Nat.add_lt_add_left hlt base
      rw [Owner.consume, if_pos hmore, hread, ih _ rfl hlt (by omega), hsplit, List.foldl_cons,
        List.foldl_cons]

/-- The entry for a window whose records compose to `r`. -/
def entryOf (host : Host) (tape : SlotTape) (nWin k : ℕ) (r : P64) : CompositeEntry where
  v := r.v
  c := r.c
  db := r.db
  da := r.da
  hFinal := hashApplyP64 host.cpu spanSeed r
  msgs := tape.windowMsgs.getD (k % max nWin 1) 0
  window := k
  degCnt := r.deg.setWidth 64 <<< 32 ||| r.cnt.setWidth 64

section Published

variable {tape : SlotTape} {useSuper : Bool} {gs : List (List P64)}

/-- One window of an owner that stands at the window's start. -/
theorem ownerWindow_eq (hgrid : Grouped (tape.grid useSuper).1 (tape.grid useSuper).2 gs)
    (hpos : 0 < gs.length) (k : ℕ) :
    ownerWindow host tape gs.length useSuper
        ⟨k / gs.length * gs.flatten.length + (frontiers gs).getD (k % gs.length) 0, k, P64.identity,
          spanSeed⟩ =
      (entryOf host tape gs.length k (composeSpanRun host.cpu (gs.getD (k % gs.length) [])),
        ⟨k / gs.length * gs.flatten.length + (frontiers gs).getD (k % gs.length + 1) 0, k + 1,
          P64.identity, spanSeed⟩) := by
  have hmod : k % gs.length < gs.length := Nat.mod_lt k hpos
  have hmax : max gs.length 1 = gs.length := Nat.max_eq_left hpos
  obtain ⟨hle, hlen⟩ := frontiers_le hmod
  have hconsume := @consume_between host gs.flatten _ _ _
    ⟨k / gs.length * gs.flatten.length + (frontiers gs).getD (k % gs.length) 0, k, P64.identity,
      spanSeed⟩ rfl hle hlen (Nat.mul_mod_left _ _)
  rw [between_frontiers hmod, foldl_hash] at hconsume
  have hpair : tape.grid useSuper = (gs.flatten, frontiers gs) := Prod.ext hgrid.recs hgrid.fronts
  rw [ownerWindow, hpair]
  simp only [hmax, hconsume, entryOf]
  rw [← List.getElem_eq_getD (h := hmod) []]
  rfl

/-- The owner stands at the start of each window, in every cycle over the schedule. -/
theorem ownerAt_eq (hgrid : Grouped (tape.grid useSuper).1 (tape.grid useSuper).2 gs)
    (hpos : 0 < gs.length) (k : ℕ) :
    ownerAt host tape gs.length useSuper k =
      ⟨k / gs.length * gs.flatten.length + (frontiers gs).getD (k % gs.length) 0, k, P64.identity,
        spanSeed⟩ := by
  have hzero : (frontiers gs).getD 0 0 = 0 := by
    rw [frontiers_getD (Nat.zero_le _), List.take_zero, List.flatten_nil, List.length_nil]
  induction k with
  | zero =>
      rw [ownerAt, Nat.zero_div, Nat.zero_mul, Nat.zero_mod, hzero]
      rfl
  | succ k ih =>
      have hmod : k % gs.length < gs.length := Nat.mod_lt k hpos
      have hdm := Nat.div_add_mod k gs.length
      rw [ownerAt, ih, ownerWindow_eq hgrid hpos]
      rcases Nat.lt_or_eq_of_le (Nat.succ_le_of_lt hmod) with hlt | hlast
      · have hnext : k + 1 = gs.length * (k / gs.length) + (k % gs.length + 1) := by omega
        have hdiv : (k + 1) / gs.length = k / gs.length := by
          rw [hnext, Nat.mul_add_div hpos, Nat.div_eq_of_lt hlt, Nat.add_zero]
        have hrem : (k + 1) % gs.length = k % gs.length + 1 := by
          rw [hnext, Nat.mul_add_mod, Nat.mod_eq_of_lt hlt]
        rw [hdiv, hrem]
      · have hnext : k + 1 = gs.length * (k / gs.length + 1) := by
          rw [Nat.mul_succ]
          omega
        have hdiv : (k + 1) / gs.length = k / gs.length + 1 := by
          rw [hnext, Nat.mul_div_cancel_left _ hpos]
        have hrem : (k + 1) % gs.length = 0 := by
          rw [hnext, Nat.mul_mod_right]
        have hend : (frontiers gs).getD (k % gs.length + 1) 0 = gs.flatten.length := by
          rw [← Nat.succ_eq_add_one, hlast, frontiers_getD (Nat.le_refl _), List.take_length]
        rw [hdiv, hrem, hzero, hend, Nat.succ_mul]
        rfl

/-- The entry that an owner publishes for a window, in every cycle over the schedule. -/
theorem published_eq (hgrid : Grouped (tape.grid useSuper).1 (tape.grid useSuper).2 gs)
    (hpos : 0 < gs.length) (k : ℕ) :
    published host tape gs.length useSuper k =
      entryOf host tape gs.length k
        (composeSpanRun host.cpu (gs.getD (k % gs.length) [])) := by
  rw [published, ownerAt_eq hgrid hpos, ownerWindow_eq hgrid hpos]

end Published

/-! ## The window law -/

/-- A record of spans: a degree, a count and an affine map with an invertible factor, and
nothing else. -/
structure SpanShaped (p : P64) : Prop where
  unit : IsUnit (recordMap p).c
  db : p.db = 0
  da : p.da = 0
  px : p.px = 0
  tag : p.tag = 0
  flg : p.flg = 0

theorem spanRecord_shaped (host : Host) (span : Span) :
    SpanShaped (spanRecord host span.1 span.2) := by
  refine ⟨?_, rfl, rfl, rfl, rfl, rfl⟩
  change IsUnit (res (shiftPow host.cpu span.1.length))
  rw [res_shiftPow]
  exact isUnit_root.pow _

theorem SpanShaped.compose {p q : P64} (hp : SpanShaped p) (hq : SpanShaped q) :
    SpanShaped (p64Compose host.cpu p q) := by
  have hunset : ¬ q.Sets := by
    intro hsets
    rw [P64.Sets, hq.flg] at hsets
    exact hsets rfl
  refine ⟨?_, ?_, ?_, ?_, ?_, ?_⟩
  · rw [recordMap_compose]
    exact hp.unit.mul hq.unit
  · rw [p64Compose, hp.db, hq.db]
    rfl
  · rw [p64Compose, hp.da, hq.da]
    rfl
  · simp only [p64Compose, laterSetter_of_unset p q hunset]
    exact hp.px
  · simp only [p64Compose, laterSetter_of_unset p q hunset]
    exact hp.tag
  · rw [p64Compose, hp.flg, hq.flg]
    rfl

theorem run_shaped {ps : List P64} (h : ∀ p ∈ ps, SpanShaped p) :
    SpanShaped (composeSpanRun host.cpu ps) := by
  induction ps using List.reverseRecOn with
  | nil =>
      refine ⟨?_, rfl, rfl, rfl, rfl, rfl⟩
      rw [run_nil, recordMap_identity]
      exact isUnit_one
  | append_singleton ps p ih =>
      rw [run_snoc]
      exact (ih fun q hq => h q (List.mem_append_left [p] hq)).compose
        (h p (List.mem_append_right ps (List.mem_singleton_self p)))

/-- In front of a record of spans only the identity does not show. -/
theorem compose_eq_right_iff {p q : P64} (hp : SpanShaped p) (hq : SpanShaped q) :
    p64Compose host.cpu p q = q ↔ p = P64.identity := by
  constructor
  · intro h
    have hmap : recordMap p = 1 := by
      rw [← Affine.mul_eq_right_iff hq.unit, ← @recordMap_compose host.cpu, h]
    have hpair : (p.c, p.v) = (1#64, 0#64) := pairMap_injective (hmap.trans pairMap_one.symm)
    have hdeg : p.deg + q.deg = q.deg := congrArg P64.deg h
    have hcnt : p.cnt + q.cnt = q.cnt := congrArg P64.cnt h
    ext1
    · exact congrArg Prod.snd hpair
    · exact congrArg Prod.fst hpair
    · exact hp.db
    · exact hp.da
    · exact hp.px
    · exact hp.tag
    · exact add_eq_right.mp hdeg
    · exact add_eq_right.mp hcnt
    · exact hp.flg
  · rintro rfl
    have hclean : q.Clean := fun _ => ⟨hq.px, hq.tag⟩
    exact (identity_p64Compose_iff host.cpu q).mpr hclean

/-- The window law of a slot: both grids' records of the window and its own record are the
serial composition of the slot's spans, and replaying either grid publishes the same entry. -/
structure WindowLaw (host : Host) (tape : SlotTape) (nWin w : ℕ) (cur : List P64) : Prop where
  supers : composeSpanRun host.cpu (between (tape.windowSuper.getD w 0)
    (tape.windowSuper.getD (w + 1) 0) tape.supers) = composeSpanRun host.cpu cur
  chunks : composeSpanRun host.cpu (between (tape.windowChunks.getD w 0)
    (tape.windowChunks.getD (w + 1) 0) tape.chunkRec) = composeSpanRun host.cpu cur
  record : tape.windowRec[w]? = some (composeSpanRun host.cpu cur)
  replay : ∀ k, k % nWin = w → published host tape nWin true k = published host tape nWin false k

variable {wins : List (List P64)} {st : SlotState}

/-- Between two windows each grid is one group of records for each window. -/
theorem SlotClosed.grids (h : SlotClosed host wins st) :
    ∃ cg sg, Grouped st.tape.chunkRec st.tape.windowChunks cg ∧
      cg.map (composeSpanRun host.cpu) = wins.map (composeSpanRun host.cpu) ∧
      Grouped st.tape.supers st.tape.windowSuper sg ∧
      sg.map (composeSpanRun host.cpu) =
        withPast (fun past cur => composeSpanRun host.cpu (superCover past cur)) wins := by
  obtain ⟨cg, hchunks⟩ := h.chunks
  obtain ⟨sg, f, hsupers⟩ := h.supers
  refine ⟨cg, sg, ⟨?_, hchunks.windowChunks⟩, hchunks.closedRun, ⟨?_, hsupers.grid.windowSuper⟩,
    hsupers.grid.closedRun⟩
  · rw [hchunks.chunkRec, List.append_nil]
  · rw [hsupers.grid.supers, List.append_nil]

/-- What the super-chunk grid composes to in a window. -/
theorem SlotClosed.super_run (h : SlotClosed host wins st) {w : ℕ} (hw : w < wins.length) :
    composeSpanRun host.cpu (between (st.tape.windowSuper.getD w 0)
        (st.tape.windowSuper.getD (w + 1) 0) st.tape.supers) =
      composeSpanRun host.cpu (superCover (wins.take w).flatten (wins.getD w [])) := by
  obtain ⟨cg, sg, -, -, hgrid, hrun⟩ := h.grids
  have hlen : sg.length = wins.length := by
    rw [← List.length_map (composeSpanRun host.cpu), hrun, withPast_length]
  have hat : w < sg.length := hlen ▸ hw
  have hmap : w < (sg.map (composeSpanRun host.cpu)).length := by
    rw [List.length_map]
    exact hat
  rw [hgrid.recs, hgrid.fronts, between_frontiers hat, ← List.getElem_map (h := hmap)]
  simp only [hrun, withPast, List.getElem_map, List.getElem_range]

/-- The super-chunk records compose to the window's own spans if and only if they cover no spans
of an earlier window, or only spans that do not show. -/
theorem cover_iff {past cur : List P64} (hpast : ∀ p ∈ past, SpanShaped p)
    (hcur : ∀ p ∈ cur, SpanShaped p) :
    composeSpanRun host.cpu (superCover past cur) = composeSpanRun host.cpu cur ↔
      ¬ Crosses past cur ∨ composeSpanRun host.cpu (begun superSpans past) = P64.identity := by
  have hbegun : ∀ p ∈ begun superSpans past, SpanShaped p :=
    fun p hp => hpast p (List.mem_of_mem_drop hp)
  by_cases hcross : Crosses past cur
  · have hcover : superCover past cur = begun superSpans past ++ cur := by
      rw [superCover, if_pos hcross, begun,
        List.drop_append_of_le_length (Nat.div_mul_le_self _ _)]
    rw [hcover, run_append, compose_eq_right_iff (run_shaped hbegun) (run_shaped hcur)]
    exact (or_iff_right (not_not.mpr hcross)).symm
  · rw [superCover, if_neg hcross]
    exact iff_of_true rfl (Or.inl hcross)

/-- The window law of a slot holds exactly if the super-chunk records of the window compose to
its spans. -/
theorem SlotClosed.law_iff_cover (h : SlotClosed host wins st) {w : ℕ} (hw : w < wins.length) :
    WindowLaw host st.tape wins.length w (wins.getD w []) ↔
      composeSpanRun host.cpu (superCover (wins.take w).flatten (wins.getD w [])) =
        composeSpanRun host.cpu (wins.getD w []) := by
  obtain ⟨cg, sg, hchunks, hchunkRun, hsupers, hsuperRun⟩ := h.grids
  have hcg : cg.length = wins.length := by
    rw [← List.length_map (composeSpanRun host.cpu), hchunkRun, List.length_map]
  have hsg : sg.length = wins.length := by
    rw [← List.length_map (composeSpanRun host.cpu), hsuperRun, withPast_length]
  have hchunkAt (i : ℕ) (hi : i < wins.length) :
      composeSpanRun host.cpu (cg.getD i []) = composeSpanRun host.cpu (wins.getD i []) := by
    have hmap := congrArg (fun l => l.getD i (composeSpanRun host.cpu [])) hchunkRun
    simp only [List.getD_map] at hmap
    exact hmap
  have hsuperAt (hi : w < wins.length) : composeSpanRun host.cpu (sg.getD w []) =
      composeSpanRun host.cpu (superCover (wins.take w).flatten (wins.getD w [])) := by
    rw [← h.super_run hi, hsupers.recs, hsupers.fronts, between_frontiers (hsg ▸ hi),
      List.getElem_eq_getD]
  constructor
  · intro hlaw
    rw [← h.super_run hw]
    exact hlaw.supers
  · intro hcover
    refine ⟨?_, ?_, ?_, ?_⟩
    · rw [h.super_run hw, hcover]
    · rw [hchunks.recs, hchunks.fronts, between_frontiers (hcg ▸ hw), ← hchunkAt w hw,
        List.getElem_eq_getD]
    · rw [h.window.windowRec, List.getElem?_map, List.getElem?_eq_getElem hw,
        ← List.getElem_eq_getD (h := hw) []]
      rfl
    · intro k hk
      have hpos : 0 < wins.length := Nat.zero_lt_of_lt hw
      have htrue := @published_eq host st.tape true _ hsupers
        (hsg ▸ hpos) k
      have hfalse := @published_eq host st.tape false _ hchunks
        (hcg ▸ hpos) k
      rw [hsg, hk] at htrue
      rw [hcg, hk] at hfalse
      rw [htrue, hfalse, hsuperAt hw, hcover, hchunkAt w hw]

/-- The window law of a slot that holds its windows. -/
theorem SinkClosed.law_iff {windows : List (List (List Span))}
    (h : SinkClosed host demux windows σ) (s : Fin n) {w : ℕ} (hw : w < windows.length) :
    WindowLaw host (σ.slots s).tape windows.length w
        (slotRecords host demux s (windows.getD w []).flatten) ↔
      ¬ Crosses (slotRecords host demux s (windows.take w).flatten.flatten)
          (slotRecords host demux s (windows.getD w []).flatten) ∨
        composeSpanRun host.cpu
          (begun superSpans (slotRecords host demux s (windows.take w).flatten.flatten)) =
            P64.identity := by
  have hlen : (slotWindows host demux s windows).length = windows.length := List.length_map _
  have hcur : (slotWindows host demux s windows).getD w [] =
      slotRecords host demux s (windows.getD w []).flatten :=
    List.getD_map windows [] fun window => slotRecords host demux s window.flatten
  have hpast : ((slotWindows host demux s windows).take w).flatten =
      slotRecords host demux s (windows.take w).flatten.flatten := by
    rw [slotWindows, ← List.map_take, ← slotWindows, slotWindows_flatten]
  have hshaped (spans : List Span) : ∀ p ∈ slotRecords host demux s spans, SpanShaped p := by
    intro p hp
    obtain ⟨span, -, rfl⟩ := List.mem_map.mp hp
    exact spanRecord_shaped host span
  have hlaw := (h s).law_iff_cover (hlen.symm ▸ hw)
  rw [hlen, hcur, hpast] at hlaw
  rw [hlaw]
  exact cover_iff (hshaped _) (hshaped _)

/-- The construction never fails, and in each window of each slot the window law holds exactly if
the window completes no super-chunk that an earlier window began, or the spans which it then
covers again compose to the identity. -/
theorem window_law_iff (host : Host) (demux : List UInt8 → Fin n)
    (windows : List (List (List Span))) :
    ∃ σ, construct host demux windows = some σ ∧ ∀ s, ∀ w < windows.length,
      WindowLaw host (σ.slots s).tape windows.length w
          (slotRecords host demux s (windows.getD w []).flatten) ↔
        ¬ Crosses (slotRecords host demux s (windows.take w).flatten.flatten)
            (slotRecords host demux s (windows.getD w []).flatten) ∨
          composeSpanRun host.cpu
            (begun superSpans (slotRecords host demux s (windows.take w).flatten.flatten)) =
              P64.identity := by
  obtain ⟨σ, hrun, hclosed, -⟩ := construct_recorded host demux windows
  exact ⟨σ, hrun, fun s w hw => hclosed.law_iff s hw⟩

/-- A host with every instruction. -/
def fullHost : Host := ⟨true, .vec256, ⟨true, true, true⟩⟩

/-- One system event message, with its length. -/
def eventSpan : Span := ([0x00, 0x0C, 0x53, 0, 0, 0, 0, 0, 0, 0, 0, 0, 0, 0x4F], 1)

/-- A single window of one span. -/
theorem window_law_iff_single : ∃ σ,
    construct fullHost (@slotOf 1 Nat.one_pos) [[[eventSpan]]] = some σ ∧
      WindowLaw fullHost (σ.slots 0).tape 1 0
        (slotRecords fullHost (slotOf Nat.one_pos) 0 [eventSpan]) := by
  obtain ⟨σ, hrun, hlaw⟩ := window_law_iff fullHost (slotOf Nat.one_pos) [[[eventSpan]]]
  refine ⟨σ, hrun, (hlaw 0 0 Nat.one_pos).mpr (Or.inl ?_)⟩
  exact not_not.mpr rfl

/-- With one span in the first window and 1023 in the second, the second window's super-chunk
covers the first window's span as well. -/
theorem second_window_covers_first : ∃ σ,
    construct fullHost (@slotOf 1 Nat.one_pos)
        [[[eventSpan]], [List.replicate 1023 eventSpan]] = some σ ∧
      ¬ WindowLaw fullHost (σ.slots 0).tape 2 1
        (slotRecords fullHost (slotOf Nat.one_pos) 0 (List.replicate 1023 eventSpan)) := by
  obtain ⟨σ, hrun, hclosed, -⟩ := construct_recorded fullHost (@slotOf 1 Nat.one_pos)
    [[[eventSpan]], [List.replicate 1023 eventSpan]]
  refine ⟨σ, hrun, ?_⟩
  have hall (spans : List Span) : slotRecords fullHost (@slotOf 1 Nat.one_pos) 0 spans =
      spans.map fun span => spanRecord fullHost span.1 span.2 := by
    have hslot (span : Span) : @slotOf 1 Nat.one_pos span.1 = 0 := Subsingleton.elim _ _
    rw [slotRecords, List.filter_eq_self.mpr fun span _ => decide_eq_true (hslot span)]
  have hpast : ([[[eventSpan]], [List.replicate 1023 eventSpan]].take 1).flatten.flatten =
      [eventSpan] := rfl
  have hcur : ([[[eventSpan]], [List.replicate 1023 eventSpan]].getD 1 []).flatten =
      List.replicate 1023 eventSpan := List.flatten_singleton
  have hiff := hclosed.law_iff 0 (w := 1) Nat.one_lt_two
  rw [hpast, hcur, hall, hall] at hiff
  intro hlaw
  rw [hall] at hlaw
  obtain hstay | hidentity := hiff.mp hlaw
  · apply hstay
    rw [Crosses, List.length_append, List.length_map, List.length_map, List.length_replicate]
    decide
  · have hcnt := congrArg P64.cnt hidentity
    cases hcnt

end HftProj.Testkit.FleetTape
