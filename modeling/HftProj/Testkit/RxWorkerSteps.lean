import HftProj.Testkit.RxWalk

/-!
# The steps of the descriptor worker

What one step of the worker does, from each place of its loop: it keeps what holds of the walk,
reads the row of the window that holds the span, and comes nearer to the next span.
-/

namespace HftProj.Testkit.RxWorker

open HftProj.Lib HftProj.Lib.RoundRobin HftProj.Testkit.LaneGrid
open HftProj.Testkit.RxSubmit (chunk recRing rxChunkCap rxNarr Opened)

variable {c : Config} {f f' : Fabric} {s s' : Sink} {w w' : Worker} {r n g x : ℕ} {b : Bool}

/-! ## One step of the worker -/

/-- How far the worker is from its next span, in steps of the loop. -/
def rank (c : Config) (s : Sink) (w : Worker) : ℕ :=
  match w.pc with
  | .probe _ _ _ _ => beyond s.windows w.recBase
  | .inner r n g => s.windows.length + if g < w.chunkHi r ∧ n < c.wbatch then 1 else 500
  | .walk r n => s.windows.length + if n < c.wbatch ∧ w.eval < r then 2 else 490
  | .gate r => s.windows.length + if w.eval < r then 3 else 480
  | .top => s.windows.length + 100
  | .scan _ x => s.windows.length + 700 - x

/-- A step of a worker that has seen the generation, and what it brings. -/
structure Stepped (c : Config) (f : Fabric) (s : Sink) (w w' : Worker) : Prop where
  step : w.step c f = some w'
  walked : Walked c f s w'
  record : w.recBase ≤ w'.recBase
  eval : w.eval ≤ w'.eval
  pos : w.pos ≤ w'.pos
  progress : w.pos < f.ready.2 → w.pos < w'.pos ∨ rank c s w' < rank c s w

theorem Walked.move (h : Walked c f s w) {pc : Pc} (hpos : ({ w with pc := pc } : Worker).pos = w.pos)
    (hok : PcOk c s f.ready.2 { w with pc := pc }) : Walked c f s { w with pc := pc } where
  polled := h.polled
  shown := h.shown
  own := h.own
  base := h.base.trans (Nat.le_of_eq hpos.symm)
  plain := h.plain
  log := hpos.symm ▸ h.log
  pc := hok

/-- A step that only moves on in the loop. -/
theorem Stepped.of_move {pc : Pc} (hstep : w.step c f = some { w with pc := pc })
    (h : Walked c f s w) (hpos : ({ w with pc := pc } : Worker).pos = w.pos)
    (hok : PcOk c s f.ready.2 { w with pc := pc })
    (hrank : w.pos < f.ready.2 → rank c s { w with pc := pc } < rank c s w) :
    Stepped c f s w { w with pc := pc } :=
  ⟨hstep, h.move hpos hok, Nat.le_refl _, Nat.le_refl _, Nat.le_of_eq hpos.symm,
    fun hlt => Or.inr (hrank hlt)⟩

theorem top_stepped (h : Walked c f s w) (hpc : w.pc = .top) :
    Stepped c f s w { w with pc := .gate f.ready.2 } := by
  have hpos : w.pos = w.eval := by rw [Worker.pos, hpc]
  have hok := h.pc
  rw [PcOk, hpc] at hok
  obtain ⟨hrec, hseg, hres⟩ := hok
  refine .of_move ?_ h hpos.symm ⟨Nat.le_refl _, hrec, hseg, hres⟩ ?_
  · rw [Worker.step, hpc]
    exact if_pos (h.shown.trans h.polled.symm)
  · intro hlt
    rw [rank, rank, hpc]
    dsimp only
    rw [if_pos (hpos ▸ hlt)]
    omega

/-- The first record is found. -/
theorem scan_stepped (hp : Published f s) (hlead : beyond s.windows w.recBase < recRing)
    (h : Walked c f s w) (hpc : w.pc = .scan r x) : ∃ w', Stepped c f s w w' := by
  have hpos : w.pos = w.eval := by rw [Worker.pos, hpc]
  have hok := h.pc
  rw [PcOk, hpc] at hok
  obtain ⟨hr, heval, hbase, hseg, hscan⟩ := hok
  rw [hbase] at hlead
  obtain ⟨v, hv, hzero, hrec⟩ := hp.first_record (hp.ready h.shown).1 hlead
  have hle := hscan v hv hzero
  have hslot := hp.slots v hv
  have hx : x < 128 := Nat.lt_of_le_of_lt hle hslot
  by_cases hfound : (f.records x).gen = w.gen ∧ (f.records x).base = 0
  · obtain ⟨u, hu, huslot, hurec⟩ := hp.record_window (hfound.1.trans h.polled)
    have hubase : u.base = 0 := by
      have hbase := hfound.2
      rwa [hurec] at hbase
    refine ⟨{ w with recSlot := x, arrSlot := (f.records x).arrSlot, pc := .gate r }, ?_, ?_,
      Nat.le_refl _, Nat.le_refl _, Nat.le_of_eq hpos, ?_⟩
    · rw [Worker.step, hpc]
      exact if_pos hfound
    · refine ⟨h.polled, h.shown, h.own, h.base.trans (Nat.le_of_eq hpos), h.plain,
        hpos ▸ h.log, hr, ⟨u, hu, huslot, hubase.trans hbase.symm, ?_⟩, hseg, ?_⟩
      · rw [hurec]
        rfl
      · exact fun hmid => absurd heval hmid
    · intro _
      right
      rw [rank, rank, hpc]
      dsimp only
      split <;> omega
  · have hlt : x < v.recSlot := by
      apply Nat.lt_of_le_of_ne hle
      rintro rfl
      apply hfound
      rw [hrec]
      exact ⟨h.polled.symm, hzero⟩
    have hnext : x + 1 < recRing := Nat.lt_of_le_of_lt hlt hslot
    refine ⟨{ w with pc := .scan r (x + 1) }, .of_move ?_ h hpos.symm ⟨hr, heval, hbase, hseg, ?_⟩ ?_⟩
    · rw [Worker.step, hpc]
      exact (if_neg hfound).trans (if_pos hnext)
    · intro u hu huzero
      rwa [hp.base_inj hu hv (huzero.trans hzero.symm)]
    · intro _
      rw [rank, rank, hpc]
      dsimp only
      omega

theorem gate_stepped (hp : Published f s) (hwb : 0 < c.wbatch) (h : Walked c f s w)
    (hpc : w.pc = .gate r) : ∃ w', Stepped c f s w w' := by
  have hpos : w.pos = w.eval := by rw [Worker.pos, hpc]
  have hok := h.pc
  rw [PcOk, hpc] at hok
  obtain ⟨hr, hrec, hseg, hres⟩ := hok
  by_cases hout : (if w.blobBase = 0 then f.blobBase else w.blobBase) = 0 ∨ r ≤ w.eval
  · refine ⟨{ w with blobBase := if w.blobBase = 0 then f.blobBase else w.blobBase, pc := .top },
      ?_, ⟨h.polled, h.shown, h.own, h.base.trans (Nat.le_of_eq hpos), h.plain, hpos ▸ h.log,
        hrec, hseg, hres⟩, Nat.le_refl _, Nat.le_refl _, Nat.le_of_eq hpos, ?_⟩
    · rw [Worker.step, hpc]
      exact if_pos hout
    · intro hlt
      right
      have hge : ¬ w.eval < r := by
        intro hin
        refine hout.elim (fun hzero => ?_) (Nat.not_le_of_lt hin)
        have hspan : 0 < s.nextSpan :=
          Nat.lt_of_lt_of_le (Nat.zero_lt_of_lt hin) (hr.trans (hp.ready h.shown).2)
        have hblob := hp.blob hspan
        split at hzero
        · exact hblob hzero
        · exact ‹¬ _› hzero
      rw [rank, rank, hpc]
      dsimp only
      rw [if_neg hge]
      omega
  · have hin : w.eval < r := Nat.lt_of_not_le fun hle => hout (Or.inr hle)
    refine ⟨{ w with blobBase := if w.blobBase = 0 then f.blobBase else w.blobBase, pc := .walk r 0 },
      ?_, ⟨h.polled, h.shown, h.own, h.base.trans (Nat.le_of_eq hpos), h.plain, hpos ▸ h.log,
        hr, hrec, hres, fun hpositive => absurd hseg (Nat.ne_of_gt hpositive)⟩,
      Nat.le_refl _, Nat.le_refl _, Nat.le_of_eq hpos, ?_⟩
    · rw [Worker.step, hpc]
      exact if_neg hout
    · intro hlt
      right
      rw [rank, rank, hpc]
      dsimp only
      rw [if_pos hin, if_pos ⟨hwb, hin⟩]
      omega

/-! ### The chunks -/

theorem mem_segs_flush {t : ℕ × ℕ} (ht : t ∈ w.flush.segs) : t ∈ w.segs ∨ t.2 = 0 := by
  rw [Worker.flush] at ht
  split at ht
  · exact Or.inl ht
  · obtain ht | ht := List.mem_append.mp ht
    · exact Or.inl ht
    · exact Or.inr (by rw [List.mem_singleton.mp ht])

theorem Logged.flush {e pos : ℕ} {visits : List Visit} (h : Logged c s e visits w.segs pos) :
    Logged c s e visits w.flush.segs pos := by
  have hsame : w.flush.segs.flatMap (fun t => List.range' t.1 t.2) =
      w.segs.flatMap fun t => List.range' t.1 t.2 := by
    rw [Worker.flush]
    split
    · rfl
    · simp [Worker.segs]
  refine { h with covers := hsame.trans h.covers, split := ?_ }
  intro t ht v hv hpass hin
  obtain ht | hzero := mem_segs_flush ht
  · exact h.split t ht v hv hpass hin
  · omega

/-- A flush changes the accumulator and the results, and loses nothing. -/
theorem flushIf_cases (w : Worker) (b : Bool) :
    ∃ res len, w.flushIf b = { w with res := res, segLen := len } ∧
      (b = true → len = 0) ∧ (b = false → len = w.segLen) ∧
      ∀ {c s e visits pos}, Logged c s e visits w.segs pos →
        Logged c s e visits (res ++ [(w.segFirst, len)]) pos := by
  cases b
  · exact ⟨w.res, w.segLen, rfl, nofun, fun _ => rfl, fun h => h⟩
  · refine ⟨w.flush.res, 0, ?_, fun _ => rfl, nofun, fun h => ?_⟩
    · rw [Worker.flushIf, if_pos rfl, Worker.flush]
      split
      · have hzero : w.segLen = 0 := ‹_›
        rw [← hzero]
      · rfl
    · have hflush := h.flush
      rw [Worker.flush] at hflush ⊢
      split at hflush
      · have hzero : w.segLen = 0 := ‹_›
        rw [if_pos hzero, ← hzero]
        exact hflush
      · rw [if_neg ‹_›]
        exact hflush

/-- The loop over the chunks of a batch enters a chunk, passes over a claimed one, or ends. -/
theorem walk_stepped (hp : Published f s)
    (hkept : ∀ k ∈ s.claims, w.eval ≤ k * chunk → f.chunkState (k % rxChunkCap) = k + 1)
    (hl : c.laneIdx < c.nLanes) (h : Walked c f s w) (hpc : w.pc = .walk r n) :
    ∃ w', Stepped c f s w w' := by
  have hpos : w.pos = w.eval := by rw [Worker.pos, hpc]
  have hok := h.pc
  rw [PcOk, hpc] at hok
  obtain ⟨hr, hrec, hres, hseg⟩ := hok
  by_cases hin : n < c.wbatch ∧ w.eval < r
  · have hzero : w.segLen = 0 := by
      apply Nat.eq_zero_of_not_pos
      intro hpositive
      obtain hfull | hend := hseg hpositive
      · exact Nat.not_lt_of_le hfull hin.1
      · exact Nat.not_lt_of_le hend hin.2
    by_cases hinline : w.eval = w.eval / chunk * chunk ∧ f.isInline (w.eval / chunk) = true
    · have hclaim : w.eval / chunk ∈ s.claims :=
        hp.marks (hp.cleared (hp.ready h.shown).1) _ _ (eq_of_beq hinline.2)
      have hturn : w.eval < (w.eval / chunk + c.nLanes) * chunk :=
        Nat.lt_of_lt_of_le (lt_chunk_end _)
          (Nat.mul_le_mul_right _ (Nat.add_le_add_left (Nat.zero_lt_of_lt hl) _))
      have hmove : w.pos ≤ (w.eval / chunk + c.nLanes) * chunk :=
        (Nat.le_of_eq hpos).trans (Nat.le_of_lt hturn)
      refine ⟨{ w with eval := (w.eval / chunk + c.nLanes) * chunk }, ?_, ?_, Nat.le_refl _,
        Nat.le_of_lt hturn, ?_, ?_⟩
      · rw [Worker.step, hpc]
        exact (if_pos hin).trans (if_pos hinline)
      · have hnewpos : ({ w with eval := (w.eval / chunk + c.nLanes) * chunk } : Worker).pos =
            (w.eval / chunk + c.nLanes) * chunk := by rw [Worker.pos]; simp only [hpc]
        refine ⟨h.polled, h.shown, own_turn h.own, ?_, h.plain, ?_, ?_⟩
        · rw [hnewpos]
          exact h.base.trans hmove
        · rw [hnewpos]
          apply h.log.skip hmove
          rw [hpos]
          intro i hlo hhi hown
          obtain hlt | hge := Nat.lt_or_ge i ((w.eval / chunk + 1) * chunk)
          · rwa [div_chunk_eq ((Nat.div_mul_le_self _ _).trans hlo) hlt]
          · exact absurd hown (not_own_between h.own hge hhi)
        · rw [PcOk]
          simp only [hpc]
          refine ⟨hr, hrec, fun hmid => ?_, fun hpositive => absurd hzero (Nat.ne_of_gt hpositive)⟩
          exact absurd (Nat.mul_mod_left _ _) hmid
      · rw [hpos, Worker.pos]
        simp only [hpc]
        exact Nat.le_of_lt hturn
      · intro _
        left
        rw [hpos, Worker.pos]
        simp only [hpc]
        exact hturn
    · have hclaim : w.eval / chunk ∉ s.claims := by
        by_cases hmid : w.eval % chunk = 0
        · have hstart : w.eval = w.eval / chunk * chunk :=
            (Nat.div_mul_cancel (Nat.dvd_of_mod_eq_zero hmid)).symm
          intro hmem
          apply hinline
          refine ⟨hstart, ?_⟩
          rw [Fabric.isInline, hkept _ hmem (Nat.le_of_eq hstart)]
          exact beq_self_eq_true _
        · exact hres hmid
      have hhi : w.eval < w.chunkHi r := Nat.lt_min.mpr ⟨lt_chunk_end _, hin.2⟩
      refine ⟨{ w with pc := .inner r n w.eval }, .of_move ?_ h hpos.symm
        ⟨⟨hrec, hr, Nat.le_refl _, hin.2, Nat.le_of_lt hhi, hclaim⟩,
          fun hpositive => absurd hzero (Nat.ne_of_gt hpositive)⟩ ?_⟩
      · rw [Worker.step, hpc]
        exact (if_pos hin).trans (if_neg hinline)
      · intro _
        rw [rank, rank, hpc]
        dsimp only
        rw [if_pos hin, if_pos]
        · omega
        · exact ⟨hhi, hin.1⟩
  · obtain ⟨res, len, hflush, hzero, hkeep, hlog⟩ := flushIf_cases w c.composite
    have hlen : len = 0 := by
      cases hcomp : c.composite
      · exact (hkeep hcomp).trans (h.plain hcomp)
      · exact hzero hcomp
    have hlast : ¬ (w.eval < r ∧ n < c.wbatch) := fun hboth => hin hboth.symm
    refine ⟨{ w.flushIf c.composite with pc := .top }, ?_, ?_, ?_, ?_, ?_, ?_⟩
    · rw [Worker.step, hpc]
      exact if_neg hin
    · rw [hflush]
      exact ⟨h.polled, h.shown, h.own, h.base.trans (Nat.le_of_eq hpos), fun _ => hlen,
        hpos ▸ hlog h.log, hrec, hlen, hres⟩
    · rw [hflush]
    · rw [hflush]
    · rw [hflush]
      exact Nat.le_of_eq hpos
    · intro _
      right
      rw [rank, rank, hpc]
      dsimp only
      rw [if_neg hin]
      omega

/-- The walk resumes at the next position to visit, with nothing of the lane's in between. -/
theorem resume_spec (hl : c.laneIdx < c.nLanes) (hown : OwnSpan c.laneIdx c.nLanes w.eval)
    (hin : InChunk s f.ready.2 w r g) :
    g ≤ w.resume c r g ∧ OwnSpan c.laneIdx c.nLanes (w.resume c r g) ∧
      (∀ i, g ≤ i → i < w.resume c r g → ¬ OwnSpan c.laneIdx c.nLanes i) ∧
      (w.resume c r g % chunk ≠ 0 → w.resume c r g / chunk ∉ s.claims) := by
  have hchunk : ∀ {p}, w.eval ≤ p → p < (w.eval / chunk + 1) * chunk →
      OwnSpan c.laneIdx c.nLanes p ∧ p / chunk ∉ s.claims := by
    intro p hlo hhi
    have hsame := div_chunk_eq ((Nat.div_mul_le_self _ _).trans hlo) hhi
    exact ⟨hown.of_div hsame, hsame ▸ hin.unclaimed⟩
  rw [Worker.resume]
  split
  · obtain ⟨hg, hclaim⟩ := hchunk hin.since (Nat.lt_of_lt_of_le ‹_› (w.chunkHi_le_end r))
    exact ⟨Nat.le_refl _, hg, fun i hlo hhi => absurd hhi (Nat.not_lt_of_le hlo), fun _ => hclaim⟩
  · have hg : g = w.chunkHi r := Nat.le_antisymm hin.upto (Nat.le_of_not_lt ‹_›)
    split
    · have hfull : w.chunkHi r = (w.eval / chunk + 1) * chunk := ‹_›
      refine ⟨?_, own_turn hown, ?_, fun hmid => absurd (Nat.mul_mod_left _ _) hmid⟩
      · rw [hg, hfull]
        exact Nat.mul_le_mul_right _ (Nat.add_le_add_left (Nat.zero_lt_of_lt hl) _)
      · intro i hlo hhi
        exact not_own_between hown ((hfull ▸ Nat.le_of_eq hg.symm).trans hlo) hhi
    · have hpart : w.chunkHi r < (w.eval / chunk + 1) * chunk :=
        Nat.lt_of_le_of_ne (w.chunkHi_le_end r) ‹_›
      obtain ⟨hown', hclaim⟩ := hchunk (hg ▸ hin.since) hpart
      exact ⟨Nat.le_of_eq hg, hown', fun i hlo hhi => absurd (hg ▸ hlo) (Nat.not_le_of_lt hhi),
        fun _ => hclaim⟩

/-- The end of a chunk, of what is exposed of it, or of the batch. -/
theorem chunkEnd_stepped (hl : c.laneIdx < c.nLanes) (h : Walked c f s w)
    (hpc : w.pc = .inner r n g) (hend : ¬ (g < w.chunkHi r ∧ n < c.wbatch)) :
    Stepped c f s w (w.chunkEnd c r n g) := by
  have hpos : w.pos = g := by rw [Worker.pos, hpc]
  have hok := h.pc
  rw [PcOk, hpc] at hok
  obtain ⟨hin, hrun⟩ := hok
  obtain ⟨hge, hown, hgap, hres⟩ := resume_spec hl h.own hin
  obtain ⟨res, len, hflush, hzero, hkeep, hlog⟩ :=
    flushIf_cases w (c.composite && g = (w.eval / chunk + 1) * chunk)
  -- a segment stays in flight only if the batch or what is exposed ends here
  have hseg : 0 < len → c.wbatch ≤ n ∨ r ≤ w.resume c r g := by
    intro hpositive
    by_cases hlt : g < w.chunkHi r
    · exact Or.inl (Nat.le_of_not_lt fun hn => hend ⟨hlt, hn⟩)
    · have hg : g = w.chunkHi r := Nat.le_antisymm hin.upto (Nat.le_of_not_lt hlt)
      right
      by_cases hfull : w.chunkHi r = (w.eval / chunk + 1) * chunk
      · exfalso
        have hcomp : c.composite = true := by
          by_contra hno
          have hplain := h.plain (Bool.eq_false_of_not_eq_true hno)
          rw [hkeep (by simp [hno]), hplain] at hpositive
          exact Nat.lt_irrefl 0 hpositive
        rw [hzero (by simp [hcomp, hg, hfull])] at hpositive
        exact Nat.lt_irrefl 0 hpositive
      · rw [Worker.resume, if_neg hlt, if_neg hfull]
        rw [Worker.chunkHi] at hfull ⊢
        omega
  have hwalk : w.chunkEnd c r n g =
      { w with res := res, segLen := len, eval := w.resume c r g, pc := .walk r n } := by
    rw [Worker.chunkEnd, hflush]
  rw [hwalk]
  refine ⟨?_, ⟨h.polled, h.shown, hown, ?_, ?_, ?_, hin.loaded, hin.record, hres, hseg⟩,
    Nat.le_refl _, hin.since.trans hge, (Nat.le_of_eq hpos).trans hge, ?_⟩
  · rw [← hwalk, Worker.step, hpc]
    exact if_neg hend
  · exact h.base.trans ((Nat.le_of_eq hpos).trans hge)
  · intro hcomp
    exact (hkeep (by simp [hcomp])).trans (h.plain hcomp)
  · apply (hpos ▸ hlog h.log).skip hge
    exact fun i hlo hhi hmine => absurd hmine (hgap i hlo hhi)
  · intro _
    right
    rw [rank, rank, hpc]
    dsimp only
    rw [if_neg hend]
    split <;> omega

theorem InChunk.move {e : ℕ} (h : InChunk s e w r g) (pc : Pc) :
    InChunk s e { w with pc := pc } r g :=
  ⟨h.record, h.loaded, h.since, h.shown, h.upto, h.unclaimed⟩

theorem inner_stepped (hl : c.laneIdx < c.nLanes) (h : Walked c f s w)
    (hpc : w.pc = .inner r n g) : ∃ w', Stepped c f s w w' := by
  by_cases hin : g < w.chunkHi r ∧ n < c.wbatch
  · have hpos : w.pos = g := by rw [Worker.pos, hpc]
    have hok := h.pc
    rw [PcOk, hpc] at hok
    obtain ⟨hchunk, hrun⟩ := hok
    refine ⟨{ w with pc := .probe r n g false }, .of_move ?_ h hpos.symm ⟨hchunk.move _, hin.1, ?_⟩ ?_⟩
    · rw [Worker.step, hpc]
      exact if_pos hin
    · intro hpositive
      obtain ⟨hend, hbase, hnone⟩ := hrun hpositive
      exact ⟨hend, Or.inl ⟨rfl, hbase, hnone⟩⟩
    · intro _
      rw [rank, rank, hpc]
      dsimp only
      rw [if_pos hin]
      exact Nat.lt_succ_of_le (List.countP_le_length)
  · exact ⟨_, chunkEnd_stepped hl h hpc hin⟩

/-! ### A span -/

theorem beyond_lt {ws : List Opened} {v : Opened} {base : ℕ} (hv : v ∈ ws) (hlt : base < v.base) :
    beyond ws v.base < beyond ws base := by
  obtain ⟨pre, post, rfl⟩ := List.append_of_mem hv
  have hmono : ∀ us : List Opened, beyond us v.base ≤ beyond us base := fun us =>
    List.countP_mono_left fun u _ hu => decide_eq_true (hlt.trans (of_decide_eq_true hu))
  calc
    beyond (pre ++ v :: post) v.base = beyond pre v.base + beyond post v.base := by
      rw [beyond, List.countP_append, List.countP_cons_of_neg (by simp)]
      rfl
    _ < beyond pre base + (beyond post base + 1) := by
      have := hmono pre
      have := hmono post
      omega
    _ = beyond (pre ++ v :: post) base := by
      rw [beyond, beyond, beyond, List.countP_append, List.countP_cons_of_pos (by simpa using hlt)]

/-- The next window's record is adopted. -/
theorem adopt_stepped {isPass : Bool} {v : Opened} (h : Walked c f s w)
    (hp : Published f s)
    (hpc : w.pc = .probe r n g isPass) (hv : v ∈ s.windows) (hlt : w.recBase < v.base)
    (hslot : v.recSlot = (w.recSlot + 1) % recRing)
    (hrec : f.records ((w.recSlot + 1) % recRing) = word s.gen v) (hle : v.base ≤ g) :
    Stepped c f s w { w with
      recSlot := (w.recSlot + 1) % recRing, recBase := v.base, arrSlot := v.arrSlot,
      pc := .probe r n g v.passStart } := by
  have hpos : w.pos = g := by rw [Worker.pos, hpc]
  have hok := h.pc
  rw [PcOk, hpc] at hok
  obtain ⟨hin, hto, hprobe⟩ := hok
  refine ⟨?_, ⟨h.polled, h.shown, h.own, hle, h.plain, hpos ▸ h.log,
    ⟨⟨v, hv, hslot, rfl, rfl⟩, hin.loaded, hin.since, hin.shown, hin.upto, hin.unclaimed⟩, hto, ?_⟩,
    Nat.le_of_lt hlt, Nat.le_refl _, Nat.le_of_eq hpos, ?_⟩
  · rw [Worker.step, hpc]
    dsimp only
    rw [hrec]
    exact if_pos ⟨h.polled.symm, hlt, hle⟩
  · intro hpositive
    obtain ⟨hend, ⟨-, hbase, hnone⟩ | ⟨hbase, -⟩⟩ := hprobe hpositive
    · have hat : v.base = g := Nat.le_antisymm hle (hnone v hv hlt)
      refine ⟨hend, Or.inr ⟨hat, fun u hu hug => ?_⟩⟩
      rw [hp.base_inj hu hv (hug.trans hat.symm)]
    · omega
  · intro _
    right
    rw [rank, rank, hpc]
    exact beyond_lt hv hlt

section Push

variable {e first len : ℕ} {visits : List Visit} {res : List (ℕ × ℕ)} {v : Visit}

/-- A span joins the segment in flight. -/
theorem Logged.push (h : Logged c s e visits (res ++ [(first, len)]) v.gid)
    (hown : OwnSpan c.laneIdx c.nLanes v.gid) (hclaim : v.gid / chunk ∉ s.claims) (hlt : v.gid < e)
    (hread : ∃ u, owner s.windows v.gid = some u ∧ v.arrSlot = u.arrSlot ∧ v.idx = v.gid - u.base)
    (hrun : 0 < len → first + len = v.gid ∧
      ∀ u ∈ s.windows, u.base = v.gid → u.passStart = false) :
    Logged c s e (visits ++ [v]) (res ++ [(if len = 0 then v.gid else first, len + 1)])
      (v.gid + 1) := by
  refine ⟨?_, ?_, ?_, ?_, ?_⟩
  · rw [List.map_append, h.order, due_succ hown hclaim]
    rfl
  · intro q hq hqclaim hqlt
    obtain hqlt | rfl := Nat.lt_succ_iff_lt_or_eq.mp hqlt
    · exact h.below q hq hqclaim hqlt
    · exact hlt
  · intro u hu
    obtain hu | hu := List.mem_append.mp hu
    · exact h.reads u hu
    · rwa [List.mem_singleton.mp hu]
  · have hcovers := h.covers
    rw [List.flatMap_append, List.flatMap_singleton] at hcovers ⊢
    rw [List.map_append, ← hcovers, List.append_assoc, List.map_singleton]
    congr 1
    split
    · have hzero : len = 0 := ‹_›
      simp [hzero]
    · rw [List.range'_concat, Nat.one_mul, (hrun (Nat.pos_of_ne_zero ‹_›)).1]
  · intro t ht u hu hpass hin
    obtain ht | ht := List.mem_append.mp ht
    · exact h.split t (List.mem_append_left _ ht) u hu hpass hin
    · obtain rfl := List.mem_singleton.mp ht
      dsimp only at hin
      split at hin
      · omega
      · obtain ⟨hend, hflag⟩ := hrun (Nat.pos_of_ne_zero ‹_›)
        obtain hlt | heq := Nat.lt_or_eq_of_le (Nat.le_of_lt_succ hin.2)
        · exact h.split (first, len) (List.mem_append_right _ List.mem_cons_self) u hu hpass
            ⟨hin.1, hlt⟩
        · have hno := hflag u hu (heq.trans hend)
          rw [hpass] at hno
          cases hno

/-- An accumulator that holds nothing. -/
theorem Logged.empty {segs : List (ℕ × ℕ)} {pos : ℕ} (h : Logged c s e visits segs pos) (a : ℕ) :
    Logged c s e visits (segs ++ [(a, 0)]) pos := by
  refine { h with covers := ?_, split := ?_ }
  · rw [List.flatMap_append, h.covers, List.flatMap_singleton]
    exact List.append_nil _
  · intro t ht u hu hpass hin
    obtain ht | ht := List.mem_append.mp ht
    · exact h.split t ht u hu hpass hin
    · obtain rfl := List.mem_singleton.mp ht
      exact absurd hin.2 (Nat.not_lt_of_le (Nat.le_of_lt hin.1))

end Push

/-- What an evaluation does to the logs. -/
theorem evaluate_cases {isPass : Bool} {e : ℕ}
    (hlog : Logged c s e w.visits w.segs g) (hplain : c.composite = false → w.segLen = 0)
    (hown : OwnSpan c.laneIdx c.nLanes g) (hclaim : g / chunk ∉ s.claims) (hlt : g < e)
    (hread : ∃ u, owner s.windows g = some u ∧ w.arrSlot = u.arrSlot ∧ g - w.recBase = g - u.base)
    (hrun : 0 < w.segLen → w.segFirst + w.segLen = g ∧
      ∀ u ∈ s.windows, u.base = g → u.passStart = isPass) :
    ∃ res first len, w.evaluate c r n g isPass = { w with
        visits := w.visits ++ [⟨g, w.arrSlot, g - w.recBase⟩], res := res, segFirst := first,
        segLen := len, pc := .inner r (n + 1) (g + 1) } ∧
      Logged c s e (w.visits ++ [⟨g, w.arrSlot, g - w.recBase⟩]) (res ++ [(first, len)]) (g + 1) ∧
      (c.composite = false → len = 0) ∧ (0 < len → first + len = g + 1) := by
  obtain ⟨res₁, len₁, hflush₁, hzero₁, hkeep₁, hlog₁⟩ := flushIf_cases w (c.composite && isPass)
  cases hcomp : c.composite
  · have hlen : len₁ = 0 := (hkeep₁ (by simp [hcomp])).trans (hplain hcomp)
    subst hlen
    have hpush := Logged.push (v := ⟨g, w.arrSlot, g - w.recBase⟩) (hlog₁ hlog) hown hclaim hlt hread
      fun hpositive => absurd hpositive (Nat.lt_irrefl 0)
    refine ⟨res₁ ++ [(g, 1)], w.segFirst, 0, ?_, hpush.empty w.segFirst, fun _ => rfl, ?_⟩
    · rw [Worker.evaluate, hflush₁]
      simp only [hcomp, Bool.false_eq_true, if_false]
    · exact fun hpositive => absurd hpositive (Nat.lt_irrefl 0)
  · obtain ⟨res₂, len₂, hflush₂, hzero₂, hkeep₂, hlog₂⟩ := flushIf_cases
      { w with res := res₁, segLen := len₁, visits := w.visits ++ [⟨g, w.arrSlot, g - w.recBase⟩] }
      (len₁ = chunk)
    -- a segment that is still in flight was neither full nor at a pass start
    have hinflight : 0 < len₂ → w.segFirst + len₂ = g ∧
        ∀ u ∈ s.windows, u.base = g → u.passStart = false := by
      intro hpositive
      have hopen : decide (len₁ = chunk) = false := by
        by_contra hfull
        rw [hzero₂ (Bool.eq_true_of_not_eq_false hfull)] at hpositive
        exact Nat.lt_irrefl 0 hpositive
      have hlen₂ : len₂ = len₁ := hkeep₂ hopen
      have hpass : isPass = false := by
        by_contra hyes
        have hyes := Bool.eq_true_of_not_eq_false hyes
        rw [hlen₂, hzero₁ (by simp [hcomp, hyes])] at hpositive
        exact Nat.lt_irrefl 0 hpositive
      have hlen₁ : len₁ = w.segLen := hkeep₁ (by simp [hpass])
      rw [hlen₂, hlen₁] at hpositive ⊢
      obtain ⟨hend, hflag⟩ := hrun hpositive
      exact ⟨hend, fun u hu hbase => (hflag u hu hbase).trans hpass⟩
    have hpush := Logged.push (v := ⟨g, w.arrSlot, g - w.recBase⟩) (hlog₂ (hlog₁ hlog)) hown hclaim
      hlt hread hinflight
    refine ⟨res₂, if len₂ = 0 then g else w.segFirst, len₂ + 1, ?_, hpush, nofun, ?_⟩
    · rw [Worker.evaluate, hflush₁]
      simp only [hcomp, if_true]
      rw [hflush₂]
      rfl
    · intro _
      split
      · have hzero : len₂ = 0 := ‹_›
        rw [hzero]
      · rw [← Nat.add_assoc, (hinflight (Nat.pos_of_ne_zero ‹_›)).1]

/-- A span is evaluated once no further record starts at or before it. -/
theorem evaluate_stepped {isPass : Bool} (hp : Published f s) (h : Walked c f s w)
    (hpc : w.pc = .probe r n g isPass)
    (hstop : ¬ ((f.records ((w.recSlot + 1) % recRing)).gen = w.gen ∧
      w.recBase < (f.records ((w.recSlot + 1) % recRing)).base ∧
      (f.records ((w.recSlot + 1) % recRing)).base ≤ g))
    (hnext : ∀ u ∈ s.windows, w.recBase < u.base → g < u.base) :
    Stepped c f s w (w.evaluate c r n g isPass) := by
  have hpos : w.pos = g := by rw [Worker.pos, hpc]
  have hbase := hpos ▸ h.base
  have hok := h.pc
  rw [PcOk, hpc] at hok
  obtain ⟨hin, hto, hprobe⟩ := hok
  obtain ⟨u, hu, huslot, hubase, huarr⟩ := hin.record
  have hsame := hin.same_chunk hto
  have hexp : g < f.ready.2 := Nat.lt_of_lt_of_le hto ((w.chunkHi_le r).trans hin.loaded)
  have howner : owner s.windows g = some u :=
    hp.owner_eq hu (hubase ▸ hbase) fun t ht hlt => hnext t ht (hubase ▸ hlt)
  have hrun : 0 < w.segLen → w.segFirst + w.segLen = g ∧
      ∀ t ∈ s.windows, t.base = g → t.passStart = isPass := by
    intro hpositive
    obtain ⟨hend, ⟨-, hlt, -⟩ | ⟨-, hflag⟩⟩ := hprobe hpositive
    · exact ⟨hend, fun t ht hat => absurd (hnext t ht (hat ▸ hlt)) (Nat.not_lt_of_le (Nat.le_of_eq hat))⟩
    · exact ⟨hend, hflag⟩
  obtain ⟨res, first, len, heq, hlog, hplain, hend⟩ := evaluate_cases (r := r) (n := n)
    (hpos ▸ h.log) h.plain (h.own.of_div hsame) (hsame ▸ hin.unclaimed) hexp
    ⟨u, howner, huarr.symm, by rw [hubase]⟩ hrun
  have hstep : w.step c f = some (w.evaluate c r n g isPass) := by
    rw [Worker.step, hpc]
    exact if_neg hstop
  rw [heq] at hstep ⊢
  refine ⟨hstep, ⟨h.polled, h.shown, h.own, Nat.le_succ_of_le hbase, hplain, hlog,
    ⟨⟨u, hu, huslot, hubase, huarr⟩, hin.loaded, Nat.le_succ_of_le hin.since, hin.shown, hto,
      hin.unclaimed⟩, ?_⟩, Nat.le_refl _, Nat.le_refl _, ?_, ?_⟩
  · exact fun hpositive => ⟨hend hpositive, Nat.lt_succ_of_le hbase, hnext⟩
  · rw [hpos]
    exact Nat.le_succ g
  · intro _
    left
    rw [hpos]
    exact Nat.lt_succ_self g

theorem probe_stepped {isPass : Bool} (hp : Published f s)
    (hlead : beyond s.windows w.recBase < recRing) (h : Walked c f s w)
    (hpc : w.pc = .probe r n g isPass) : ∃ w', Stepped c f s w w' := by
  have hok := h.pc
  rw [PcOk, hpc] at hok
  obtain ⟨u, hu, huslot, hubase, huarr⟩ := hok.1.record
  rw [← hubase] at hlead
  have hread := hp.next_record hu hlead
  rw [huslot, hubase] at hread
  obtain ⟨hlast, hno⟩ | ⟨v, hv, hlt, hnext, hslot, hrec⟩ := hread
  · refine ⟨_, evaluate_stepped hp h hpc ?_ ?_⟩
    · exact fun hyes => hno ⟨hyes.1.trans h.polled, hyes.2.1⟩
    · exact fun t ht hgt => absurd (hlast t ht) (Nat.not_le_of_lt hgt)
  · by_cases hle : v.base ≤ g
    · exact ⟨_, adopt_stepped h hp hpc hv hlt hslot hrec hle⟩
    · refine ⟨_, evaluate_stepped hp h hpc ?_ ?_⟩
      · rw [hrec]
        exact fun hyes => hle hyes.2.2
      · exact fun t ht hgt => Nat.lt_of_lt_of_le (Nat.lt_of_not_le hle) (hnext t ht hgt)

/-- Wherever it is, the worker has a next step, and with it comes nearer to its next span. -/
theorem Walked.stepped (hl : c.laneIdx < c.nLanes) (hwb : 0 < c.wbatch) (hp : Published f s)
    (hlead : beyond s.windows w.recBase < recRing)
    (hkept : ∀ k ∈ s.claims, w.eval ≤ k * chunk → f.chunkState (k % rxChunkCap) = k + 1)
    (h : Walked c f s w) : ∃ w', Stepped c f s w w' := by
  cases hpc : w.pc with
  | top => exact ⟨_, top_stepped h hpc⟩
  | scan r x => exact scan_stepped hp hlead h hpc
  | gate r => exact gate_stepped hp hwb h hpc
  | walk r n => exact walk_stepped hp hkept hl h hpc
  | inner r n g => exact inner_stepped hl h hpc
  | probe r n g isPass => exact probe_stepped hp hlead h hpc

end HftProj.Testkit.RxWorker
