import HftProj.Testkit.RxPublished

/-!
# The walk of the descriptor worker

What holds of a worker that has seen the generation, wherever it is in its loop, and that the
steps of the sink in between keep it.
-/

namespace HftProj.Testkit.RxWorker

open HftProj.Lib HftProj.Lib.RoundRobin HftProj.Testkit.LaneGrid
open HftProj.Testkit.RxSubmit (chunk recRing rxChunkCap rxNarr Opened)

variable {c : Config} {claims : List ℕ} {p q r e n g k x : ℕ}

/-! ## Positions -/

theorem div_chunk_eq (hlo : p / chunk * chunk ≤ q) (hhi : q < (p / chunk + 1) * chunk) :
    q / chunk = p / chunk :=
  Nat.div_eq_of_lt_le hlo hhi

theorem lt_chunk_end (p : ℕ) : p < (p / chunk + 1) * chunk := by
  rw [Nat.mul_comm]
  exact Nat.lt_mul_div_succ p chunk_pos

theorem mem_due : q ∈ due c claims p ↔
    q < p ∧ OwnSpan c.laneIdx c.nLanes q ∧ q / chunk ∉ claims := by
  simp only [due, List.mem_filter, List.mem_range, decide_eq_true_eq]

theorem due_succ (hown : OwnSpan c.laneIdx c.nLanes p) (hclaim : p / chunk ∉ claims) :
    due c claims (p + 1) = due c claims p ++ [p] := by
  rw [due, List.range_succ, List.filter_append, List.filter_cons_of_pos]
  · rfl
  · exact decide_eq_true ⟨hown, hclaim⟩

/-- Nothing is due in a stretch without own positions of unclaimed chunks. -/
theorem due_skip (hle : p ≤ q)
    (h : ∀ i, p ≤ i → i < q → OwnSpan c.laneIdx c.nLanes i → i / chunk ∈ claims) :
    due c claims q = due c claims p := by
  induction q, hle using Nat.le_induction with
  | base => rfl
  | succ q hpq ih =>
      rw [due, List.range_succ, List.filter_append, List.filter_cons_of_neg]
      · rw [List.filter_nil, List.append_nil]
        exact ih fun i hlo hhi => h i hlo (Nat.lt_succ_of_lt hhi)
      · intro hdue
        obtain ⟨hown, hclaim⟩ := of_decide_eq_true hdue
        exact hclaim (h q hpq (Nat.lt_succ_self q) hown)

theorem due_cons (h : ∀ i < p, OwnSpan c.laneIdx c.nLanes i → i / chunk ∉ claims → i / chunk ≠ k) :
    due c (k :: claims) p = due c claims p := by
  apply List.filter_congr
  intro i hi
  have hne := h i (List.mem_range.mp hi)
  apply decide_eq_decide.mpr
  constructor
  · exact fun ⟨hown, hclaim⟩ => ⟨hown, fun hmem => hclaim (List.mem_cons_of_mem k hmem)⟩
  · rintro ⟨hown, hclaim⟩
    refine ⟨hown, fun hmem => ?_⟩
    obtain heq | hmem := List.mem_cons.mp hmem
    · exact hne hown hclaim heq
    · exact hclaim hmem

/-- Between the end of an own chunk and the lane's next one no position is its own. -/
theorem not_own_between (hown : OwnSpan c.laneIdx c.nLanes p) (hlo : (p / chunk + 1) * chunk ≤ q)
    (hhi : q < (p / chunk + c.nLanes) * chunk) : ¬ OwnSpan c.laneIdx c.nLanes q := by
  intro hq
  have hlt : p / chunk < q / chunk := (Nat.le_div_iff_mul_le chunk_pos).mpr hlo
  have hturn := add_turn_le hlt (hown.trans hq.symm)
  have hless : q / chunk < p / chunk + c.nLanes := (Nat.div_lt_iff_lt_mul chunk_pos).mpr hhi
  omega

theorem own_turn (hown : OwnSpan c.laneIdx c.nLanes p) :
    OwnSpan c.laneIdx c.nLanes ((p / chunk + c.nLanes) * chunk) := by
  apply own_block chunk_pos
  rw [Nat.add_mod_right]
  exact hown

/-! ## The logs -/

def Worker.segs (w : Worker) : List (ℕ × ℕ) := w.res ++ [(w.segFirst, w.segLen)]

/-- What the worker has done up to a position, with so many spans exposed. -/
structure Logged (c : Config) (s : Sink) (e : ℕ) (visits : List Visit) (segs : List (ℕ × ℕ))
    (pos : ℕ) : Prop where
  order : visits.map Visit.gid = due c s.claims pos
  below : ∀ q, OwnSpan c.laneIdx c.nLanes q → q / chunk ∉ s.claims → q < pos → q < e
  reads : ∀ v ∈ visits, ∃ w, owner s.windows v.gid = some w ∧ v.arrSlot = w.arrSlot ∧
    v.idx = v.gid - w.base
  covers : segs.flatMap (fun r => List.range' r.1 r.2) = visits.map Visit.gid
  split : ∀ r ∈ segs, ∀ w ∈ s.windows, w.passStart = true →
    ¬ (r.1 < w.base ∧ w.base < r.1 + r.2)

/-- A step of the sink: a window may be opened and a chunk claimed beyond what is exposed. -/
structure Grows (s s' : Sink) (e e' : ℕ) : Prop where
  exposed : e ≤ e'
  windows : s'.windows = s.windows ∨
    ∃ w, s'.windows = w :: s.windows ∧ e ≤ w.base ∧ 0 < w.base
  claims : s'.claims = s.claims ∨ ∃ k, s'.claims = k :: s.claims ∧ e ≤ k * chunk

namespace Logged

variable {s s' : Sink} {visits : List Visit} {segs : List (ℕ × ℕ)} {pos e' : ℕ}

theorem visit_lt (h : Logged c s e visits segs pos) {v : Visit} (hv : v ∈ visits) : v.gid < e := by
  have hmem : v.gid ∈ due c s.claims pos := h.order ▸ List.mem_map_of_mem hv
  obtain ⟨hlt, hown, hclaim⟩ := mem_due.mp hmem
  exact h.below v.gid hown hclaim hlt

theorem seg_lt (h : Logged c s e visits segs pos) {r : ℕ × ℕ} (hr : r ∈ segs) {i : ℕ}
    (hlo : r.1 ≤ i) (hhi : i < r.1 + r.2) : i < e := by
  have hmem : i ∈ visits.map Visit.gid := by
    rw [← h.covers]
    exact List.mem_flatMap.mpr ⟨r, hr, List.mem_range'_1.mpr ⟨hlo, hhi⟩⟩
  obtain ⟨v, hv, rfl⟩ := List.mem_map.mp hmem
  exact h.visit_lt hv

/-- The position moves over a stretch with nothing due. -/
theorem skip (h : Logged c s e visits segs pos) (hle : pos ≤ q)
    (hgap : ∀ i, pos ≤ i → i < q → OwnSpan c.laneIdx c.nLanes i → i / chunk ∈ s.claims) :
    Logged c s e visits segs q := by
  refine { h with order := h.order.trans (due_skip hle hgap).symm, below := ?_ }
  intro i hown hclaim hi
  obtain hlt | hge := Nat.lt_or_ge i pos
  · exact h.below i hown hclaim hlt
  · exact absurd (hgap i hge hi hown) hclaim

theorem grow (h : Logged c s e visits segs pos) (hgrow : Grows s s' e e') :
    Logged c s' e' visits segs pos := by
  obtain ⟨hexp, hwin, hclaims⟩ := hgrow
  have hsub : ∀ q, q / chunk ∉ s'.claims → q / chunk ∉ s.claims := by
    intro q hq
    obtain heq | ⟨k, heq, -⟩ := hclaims
    · rwa [heq] at hq
    · rw [heq] at hq
      exact fun hmem => hq (List.mem_cons_of_mem k hmem)
  refine ⟨?_, ?_, ?_, h.covers, ?_⟩
  · obtain heq | ⟨k, heq, hk⟩ := hclaims
    · rw [heq]
      exact h.order
    · rw [heq, due_cons]
      · exact h.order
      · rintro i hi hown hclaim rfl
        have hlt := h.below i hown hclaim hi
        have hle := Nat.div_mul_le_self i chunk
        omega
  · exact fun q hown hclaim hq => Nat.lt_of_lt_of_le (h.below q hown (hsub q hclaim) hq) hexp
  · intro v hv
    obtain ⟨w, howner, hread⟩ := h.reads v hv
    refine ⟨w, ?_, hread⟩
    obtain heq | ⟨u, heq, hu, -⟩ := hwin
    · rwa [heq]
    · rw [heq, owner, List.find?_cons_of_neg]
      · exact howner
      · have hlt := h.visit_lt hv
        intro hle
        have := of_decide_eq_true hle
        omega
  · intro r hr w hw hpass
    obtain heq | ⟨u, heq, hu, -⟩ := hwin
    · exact h.split r hr w (heq ▸ hw) hpass
    · rw [heq] at hw
      obtain rfl | hw := List.mem_cons.mp hw
      · rintro ⟨hlo, hhi⟩
        have hlt := h.seg_lt hr (Nat.le_of_lt hlo) hhi
        omega
      · exact h.split r hr w hw hpass

end Logged

/-! ## The walk -/

variable {f : Fabric} {s s' : Sink} {w w' : Worker}

/-- The worker has adopted the record of a window. -/
def OnRecord (s : Sink) (w : Worker) : Prop :=
  ∃ v ∈ s.windows, v.recSlot = w.recSlot ∧ v.base = w.recBase ∧ v.arrSlot = w.arrSlot

/-- No window beyond the worker's starts before a position. -/
def NoneBefore (s : Sink) (w : Worker) (g : ℕ) : Prop :=
  ∀ v ∈ s.windows, w.recBase < v.base → g ≤ v.base

/-- The cursor rests where a chunk starts or inside one that is not claimed. -/
def Resting (s : Sink) (w : Worker) : Prop :=
  w.eval % chunk ≠ 0 → w.eval / chunk ∉ s.claims

/-- The worker is inside a chunk. -/
structure InChunk (s : Sink) (e : ℕ) (w : Worker) (r g : ℕ) : Prop where
  record : OnRecord s w
  loaded : r ≤ e
  since : w.eval ≤ g
  shown : w.eval < r
  upto : g ≤ w.chunkHi r
  unclaimed : w.eval / chunk ∉ s.claims

/-- A segment in flight ends at the position, and the worker is still on its last window. -/
def Running (s : Sink) (w : Worker) (g : ℕ) : Prop :=
  0 < w.segLen → w.segFirst + w.segLen = g ∧ w.recBase < g ∧ NoneBefore s w g

/-- The same while the next records are probed; a window starting at the position may have been
adopted, with its flag. -/
def Probing (s : Sink) (w : Worker) (g : ℕ) (isPass : Bool) : Prop :=
  0 < w.segLen → w.segFirst + w.segLen = g ∧
    ((isPass = false ∧ w.recBase < g ∧ NoneBefore s w g) ∨
      (w.recBase = g ∧ ∀ v ∈ s.windows, v.base = g → v.passStart = isPass))

/-- What holds where the worker is. -/
def PcOk (c : Config) (s : Sink) (e : ℕ) (w : Worker) : Prop :=
  match w.pc with
  | .top => OnRecord s w ∧ w.segLen = 0 ∧ Resting s w
  | .scan r x => r ≤ e ∧ w.eval % chunk = 0 ∧ w.recBase = 0 ∧ w.segLen = 0 ∧
      ∀ v ∈ s.windows, v.base = 0 → x ≤ v.recSlot
  | .gate r => r ≤ e ∧ OnRecord s w ∧ w.segLen = 0 ∧ Resting s w
  | .walk r n => r ≤ e ∧ OnRecord s w ∧ Resting s w ∧
      (0 < w.segLen → c.wbatch ≤ n ∨ r ≤ w.eval)
  | .inner r _ g => InChunk s e w r g ∧ Running s w g
  | .probe r _ g isPass => InChunk s e w r g ∧ g < w.chunkHi r ∧ Probing s w g isPass

/-- The span that the worker is at. -/
def Worker.pos (w : Worker) : ℕ :=
  match w.pc with
  | .inner _ _ g => g
  | .probe _ _ g _ => g
  | _ => w.eval

/-- A worker that has seen the generation. -/
structure Walked (c : Config) (f : Fabric) (s : Sink) (w : Worker) : Prop where
  polled : w.gen = s.gen
  shown : f.ready.1 = s.gen
  own : OwnSpan c.laneIdx c.nLanes w.eval
  base : w.recBase ≤ w.pos
  plain : c.composite = false → w.segLen = 0
  log : Logged c s f.ready.2 w.visits w.segs w.pos
  pc : PcOk c s f.ready.2 w

/-- A worker that is idle since the generation before. -/
structure Idle (f : Fabric) (s : Sink) (w : Worker) : Prop where
  behind : w.gen ≠ s.gen
  polled : f.ready.1 = w.gen ∧ f.ready.2 ≤ w.eval ∨ f.ready.1 = s.gen
  pc : w.pc = .top ∨ ∃ r, w.pc = .gate r ∧ r ≤ w.eval
  segLen : w.segLen = 0
  visits : w.visits = []
  res : w.res = []

theorem Worker.chunkHi_le (w : Worker) (r : ℕ) : w.chunkHi r ≤ r := Nat.min_le_right _ _

theorem Worker.chunkHi_le_end (w : Worker) (r : ℕ) : w.chunkHi r ≤ (w.eval / chunk + 1) * chunk :=
  Nat.min_le_left _ _

theorem InChunk.same_chunk (h : InChunk s e w r g) (hlt : g < w.chunkHi r) :
    g / chunk = w.eval / chunk :=
  div_chunk_eq ((Nat.div_mul_le_self _ _).trans h.since)
    (Nat.lt_of_lt_of_le hlt (w.chunkHi_le_end r))

/-! ### Steps of the sink -/

section Grow

variable {e' : ℕ}

theorem Grows.mem (h : Grows s s' e e') {v : Opened} (hv : v ∈ s.windows) : v ∈ s'.windows := by
  obtain heq | ⟨u, heq, -⟩ := h.windows
  · rwa [heq]
  · rw [heq]
    exact List.mem_cons_of_mem u hv

/-- A property of the windows that start at or beyond what is exposed. -/
theorem Grows.forall_windows (h : Grows s s' e e') {P : Opened → Prop}
    (hold : ∀ v ∈ s.windows, P v) (hnew : ∀ v : Opened, e ≤ v.base → 0 < v.base → P v) :
    ∀ v ∈ s'.windows, P v := by
  intro v hv
  obtain heq | ⟨u, heq, hu, hpos⟩ := h.windows
  · exact hold v (heq ▸ hv)
  · rw [heq] at hv
    obtain rfl | hv := List.mem_cons.mp hv
    · exact hnew v hu hpos
    · exact hold v hv

theorem Grows.onRecord (h : Grows s s' e e') (hw : OnRecord s w) : OnRecord s' w := by
  obtain ⟨v, hv, hrec⟩ := hw
  exact ⟨v, h.mem hv, hrec⟩

theorem Grows.noneBefore (h : Grows s s' e e') (hw : NoneBefore s w g) (hg : g ≤ e) :
    NoneBefore s' w g :=
  h.forall_windows hw fun _ hv _ _ => hg.trans hv

theorem Grows.unclaimed (h : Grows s s' e e') (hk : k ∉ s.claims) (hlt : k * chunk < e) :
    k ∉ s'.claims := by
  obtain heq | ⟨j, heq, hj⟩ := h.claims
  · rwa [heq]
  · rw [heq]
    intro hmem
    obtain rfl | hmem := List.mem_cons.mp hmem
    · omega
    · exact hk hmem

theorem Grows.resting (h : Grows s s' e e') (hw : Resting s w)
    (hown : OwnSpan c.laneIdx c.nLanes w.eval)
    (hbelow : ∀ q, OwnSpan c.laneIdx c.nLanes q → q / chunk ∉ s.claims → q < w.eval → q < e) :
    Resting s' w := by
  intro hmid
  have hclaim := hw hmid
  have hstart : w.eval / chunk * chunk < w.eval := by
    have hsplit := Nat.div_add_mod' w.eval chunk
    omega
  have hsame : w.eval / chunk * chunk / chunk = w.eval / chunk := Nat.mul_div_cancel _ chunk_pos
  apply h.unclaimed hclaim
  refine hbelow _ (hown.of_div hsame) ?_ hstart
  rwa [hsame]

theorem Grows.inChunk (h : Grows s s' e e') (hw : InChunk s e w r g) : InChunk s' e' w r g where
  record := h.onRecord hw.record
  loaded := hw.loaded.trans h.exposed
  since := hw.since
  shown := hw.shown
  upto := hw.upto
  unclaimed := by
    apply h.unclaimed hw.unclaimed
    have hle := Nat.div_mul_le_self w.eval chunk
    have := hw.shown
    have := hw.loaded
    omega

theorem InChunk.le_exposed (h : InChunk s e w r g) : g ≤ e :=
  (h.upto.trans (w.chunkHi_le r)).trans h.loaded

theorem Grows.pcOk (h : Grows s s' e e') (hw : PcOk c s e w)
    (hown : OwnSpan c.laneIdx c.nLanes w.eval) (hlog : Logged c s e w.visits w.segs w.pos) :
    PcOk c s' e' w := by
  have hrest : w.pos = w.eval → Resting s w → Resting s' w := by
    intro hpos hres
    apply h.resting hres hown
    rw [← hpos]
    exact hlog.below
  rw [PcOk] at hw ⊢
  split at hw <;> rename_i hpc
  · obtain ⟨hrec, hseg, hres⟩ := hw
    exact ⟨h.onRecord hrec, hseg, hrest (by rw [Worker.pos, hpc]) hres⟩
  · obtain ⟨hr, heval, hbase, hseg, hscan⟩ := hw
    refine ⟨hr.trans h.exposed, heval, hbase, hseg, h.forall_windows hscan ?_⟩
    exact fun v _ hpos hzero => absurd hzero (Nat.ne_of_gt hpos)
  · obtain ⟨hr, hrec, hseg, hres⟩ := hw
    exact ⟨hr.trans h.exposed, h.onRecord hrec, hseg, hrest (by rw [Worker.pos, hpc]) hres⟩
  · obtain ⟨hr, hrec, hres, hseg⟩ := hw
    exact ⟨hr.trans h.exposed, h.onRecord hrec, hrest (by rw [Worker.pos, hpc]) hres, hseg⟩
  · obtain ⟨hin, hrun⟩ := hw
    refine ⟨h.inChunk hin, fun hpos => ?_⟩
    obtain ⟨hend, hbase, hnone⟩ := hrun hpos
    exact ⟨hend, hbase, h.noneBefore hnone hin.le_exposed⟩
  · obtain ⟨hin, hlt, hprobe⟩ := hw
    refine ⟨h.inChunk hin, hlt, fun hpos => ?_⟩
    obtain ⟨hend, ⟨hpass, hbase, hnone⟩ | ⟨hbase, hflag⟩⟩ := hprobe hpos
    · exact ⟨hend, Or.inl ⟨hpass, hbase, h.noneBefore hnone hin.le_exposed⟩⟩
    · refine ⟨hend, Or.inr ⟨hbase, h.forall_windows hflag ?_⟩⟩
      intro v hv _ heq
      have hbelow := Nat.lt_of_lt_of_le hlt ((w.chunkHi_le _).trans (hin.loaded.trans hv))
      exact absurd heq (Nat.ne_of_gt hbelow)

theorem Walked.grow {f' : Fabric} (h : Walked c f s w) (hgrow : Grows s s' f.ready.2 f'.ready.2)
    (hgen : s'.gen = s.gen) (hshown : f'.ready.1 = s.gen) : Walked c f' s' w where
  polled := h.polled.trans hgen.symm
  shown := hshown.trans hgen.symm
  own := h.own
  base := h.base
  plain := h.plain
  log := h.log.grow hgrow
  pc := hgrow.pcOk h.pc h.own h.log

end Grow

end HftProj.Testkit.RxWorker
