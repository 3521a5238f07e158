import HftProj.Testkit.RxWorkerSteps

/-!
# Runs of the descriptor worker

Whatever the sink does in between, a worker that keeps up with the records reads each span of
its lane from the row of the window that holds it, once and in order, as long as no window is
opened behind an empty one.
-/

namespace HftProj.Testkit.RxWorker

open HftProj.Lib HftProj.Lib.RoundRobin HftProj.Testkit.LaneGrid
open HftProj.Testkit.RxSubmit (chunk recRing rxChunkCap rxNarr Opened)

variable {c : Config} {f f' : Fabric} {s s' : Sink} {w : Worker} {t t' : State}

/-- What holds between the steps of the two. -/
structure Inv (c : Config) (t : State) : Prop where
  published : Published t.fabric t.sink
  lead : t.ahead < recRing
  kept : ∀ k ∈ t.sink.claims, t.evalPlace ≤ k * chunk →
    t.fabric.chunkState (k % rxChunkCap) = k + 1
  worker : Idle t.fabric t.sink t.worker ∨ Walked c t.fabric t.sink t.worker

theorem Start.inv (h : Start t) : Inv c t where
  published := .start h
  lead := by
    rw [State.ahead, h.windows]
    exact Nat.zero_lt_of_lt (by decide : 0 < recRing)
  kept := by
    rw [h.claims]
    exact fun k hk => absurd hk List.not_mem_nil
  worker := Or.inl
    { behind := h.polled.trans_ne h.stale
      polled := Or.inl ⟨h.polled.symm, h.drained⟩
      pc := Or.inl h.pc
      segLen := h.segLen
      visits := h.visits
      res := h.res }

theorem State.ahead_eq (t : State) : t.ahead = beyond t.sink.windows t.recPlace := rfl

theorem recPlace_walked (h : Walked c f s w) : (State.mk f s w).recPlace = w.recBase :=
  if_pos h.polled

theorem evalPlace_walked (h : Walked c f s w) : (State.mk f s w).evalPlace = w.eval :=
  if_pos h.polled

theorem beyond_anti {ws : List Opened} {a b : ℕ} (h : a ≤ b) : beyond ws b ≤ beyond ws a :=
  List.countP_mono_left fun _ _ hu => decide_eq_true (Nat.lt_of_le_of_lt h (of_decide_eq_true hu))

/-! ## Steps of the worker -/

theorem Inv.stepped (hl : c.laneIdx < c.nLanes) (hwb : 0 < c.wbatch) (h : Inv c ⟨f, s, w⟩)
    (hw : Walked c f s w) : ∃ w', Stepped c f s w w' ∧ Inv c ⟨f, s, w'⟩ := by
  obtain ⟨hp, hlead, hkept, -⟩ := h
  rw [State.ahead_eq, recPlace_walked hw] at hlead
  rw [evalPlace_walked hw] at hkept
  obtain ⟨w', hstep⟩ := hw.stepped hl hwb hp hlead hkept
  refine ⟨w', hstep, hp, ?_, ?_, Or.inr hstep.walked⟩
  · rw [State.ahead_eq, recPlace_walked hstep.walked]
    exact Nat.lt_of_le_of_lt (beyond_anti hstep.record) hlead
  · rw [evalPlace_walked hstep.walked]
    exact fun k hk hle => hkept k hk (hstep.eval.trans hle)

/-- No position below its first chunk is the lane's own. -/
theorem not_own_below (hl : c.laneIdx < c.nLanes) {q : ℕ} (hq : q < c.laneIdx * chunk) :
    ¬ OwnSpan c.laneIdx c.nLanes q := by
  intro hown
  have hlt : q / chunk < c.laneIdx := (Nat.div_lt_iff_lt_mul chunk_pos).mpr hq
  rw [OwnSpan, Own, Nat.mod_eq_of_lt (Nat.lt_trans hlt hl)] at hown
  omega

/-- An idle worker sees the generation. -/
theorem Idle.anchor (hl : c.laneIdx < c.nLanes) (h : Idle f s w) (hshown : f.ready.1 = s.gen) :
    Walked c f s (w.anchor c f.ready.1 f.ready.2) := by
  have hpos : (w.anchor c f.ready.1 f.ready.2).pos = c.laneIdx * chunk := rfl
  refine ⟨hshown, hshown, ?_, Nat.zero_le _, fun _ => h.segLen, ?_, Nat.le_refl _,
    Nat.mul_mod_left _ _, rfl, h.segLen, fun _ _ _ => Nat.zero_le _⟩
  · exact own_block chunk_pos (Nat.mod_eq_of_lt hl)
  · rw [hpos, Worker.segs, Worker.anchor]
    dsimp only
    rw [h.visits, h.res, h.segLen]
    refine ⟨?_, ?_, fun v hv => absurd hv List.not_mem_nil, rfl, ?_⟩
    · exact (due_skip (Nat.zero_le _) fun q _ hq hown => absurd hown (not_own_below hl hq)).symm
    · exact fun q hown _ hq => absurd hown (not_own_below hl hq)
    · intro r hr u _ _ hin
      rw [List.mem_singleton.mp hr] at hin
      omega

theorem Inv.idle_step (hl : c.laneIdx < c.nLanes) (h : Inv c ⟨f, s, w⟩) (hw : Idle f s w) :
    ∃ w', w.step c f = some w' ∧ Inv c ⟨f, s, w'⟩ ∧
      (f.ready.1 = s.gen → Walked c f s w' ∨ Idle f s w' ∧ w.pc ≠ .top ∧ w'.pc = .top) := by
  have hplace : (State.mk f s w).recPlace = 0 := if_neg hw.behind
  have heval : (State.mk f s w).evalPlace = 0 := if_neg hw.behind
  obtain ⟨hp, hlead, hkept, -⟩ := h
  rw [State.ahead_eq, hplace] at hlead
  rw [heval] at hkept
  have hidle : ∀ {w' : Worker}, Idle f s w' → Inv c ⟨f, s, w'⟩ := by
    intro w' hw'
    refine ⟨hp, ?_, ?_, Or.inl hw'⟩
    · rw [State.ahead_eq, State.recPlace, if_neg hw'.behind]
      exact hlead
    · rw [State.evalPlace, if_neg hw'.behind]
      exact hkept
  obtain hpc | ⟨r, hpc, hr⟩ := hw.pc
  · by_cases hsame : f.ready.1 = w.gen
    · have hpolled : f.ready.2 ≤ w.eval := by
        obtain hold | hnew := hw.polled
        · exact hold.2
        · exact absurd (hsame.symm.trans hnew) hw.behind
      refine ⟨{ w with pc := .gate f.ready.2 }, ?_, hidle ?_, ?_⟩
      · rw [Worker.step, hpc]
        exact if_pos hsame
      · exact ⟨hw.behind, hw.polled, Or.inr ⟨_, rfl, hpolled⟩, hw.segLen, hw.visits, hw.res⟩
      · exact fun hshown => absurd (hsame.symm.trans hshown) hw.behind
    · have hshown : f.ready.1 = s.gen := hw.polled.resolve_left fun hold => hsame hold.1
      have hwalked := hw.anchor hl hshown
      refine ⟨w.anchor c f.ready.1 f.ready.2, ?_, ⟨hp, ?_, ?_, Or.inr hwalked⟩,
        fun _ => Or.inl hwalked⟩
      · rw [Worker.step, hpc]
        exact if_neg hsame
      · rw [State.ahead_eq, recPlace_walked hwalked]
        exact hlead
      · exact fun k hk _ => hkept k hk (Nat.zero_le _)
  · have hout : Idle f s
        { w with blobBase := if w.blobBase = 0 then f.blobBase else w.blobBase, pc := .top } :=
      ⟨hw.behind, hw.polled, Or.inl rfl, hw.segLen, hw.visits, hw.res⟩
    refine ⟨{ w with blobBase := if w.blobBase = 0 then f.blobBase else w.blobBase, pc := .top },
      ?_, hidle hout, fun _ => Or.inr ⟨hout, ?_, rfl⟩⟩
    · rw [Worker.step, hpc]
      exact if_pos (Or.inr hr)
    · rw [hpc]
      simp only [ne_eq, reduceCtorEq, not_false_eq_true]

/-! ## Steps of the sink -/

/-- A step of the sink keeps what holds of the worker. -/
theorem Inv.of_sink (h : Inv c ⟨f, s, w⟩) (hp : Published f' s') (hgen : s'.gen = s.gen)
    (hready : f'.ready = f.ready ∨ f'.ready.1 = s.gen ∧ exposed f s ≤ f'.ready.2)
    (hwin : s'.windows = s.windows ∨
      ∃ v, s'.windows = v :: s.windows ∧ exposed f s ≤ v.base ∧ (s.windows ≠ [] → 0 < v.base))
    (hclaims : s'.claims = s.claims ∨
      ∃ k, s'.claims = k :: s.claims ∧ exposed f s ≤ k * chunk)
    (hlead : beyond s'.windows (State.mk f s w).recPlace < recRing)
    (hkept : ∀ k ∈ s'.claims, (State.mk f s w).evalPlace ≤ k * chunk →
      f'.chunkState (k % rxChunkCap) = k + 1) : Inv c ⟨f', s', w⟩ := by
  have hplace : (State.mk f' s' w).recPlace = (State.mk f s w).recPlace := by
    rw [State.recPlace, State.recPlace, hgen]
  have heval : (State.mk f' s' w).evalPlace = (State.mk f s w).evalPlace := by
    rw [State.evalPlace, State.evalPlace, hgen]
  refine ⟨hp, ?_, ?_, ?_⟩
  · rw [State.ahead_eq, hplace]
    exact hlead
  · rw [heval]
    exact hkept
  · obtain hw | hw := h.worker
    · left
      refine ⟨fun heq => hw.behind (heq.trans hgen), ?_, hw.pc, hw.segLen, hw.visits, hw.res⟩
      obtain heq | ⟨hnew, -⟩ := hready
      · rw [heq, hgen]
        exact hw.polled
      · exact Or.inr (hnew.trans hgen.symm)
    · right
      have hexp : exposed f s = f.ready.2 := if_pos hw.shown
      rw [hexp] at hready hwin hclaims
      refine hw.grow ⟨?_, ?_, hclaims⟩ hgen ?_
      · obtain heq | ⟨-, hle⟩ := hready
        · rw [heq]
        · exact hle
      · refine hwin.imp_right fun ⟨v, heq, hle, hpos⟩ => ⟨v, heq, hle, ?_⟩
        exact hpos (h.published.ready hw.shown).1
      · obtain heq | ⟨hnew, -⟩ := hready
        · rw [heq]
          exact hw.shown
        · exact hnew

theorem Inv.beginPass {a : ℕ} (h : Inv c ⟨f, s, w⟩) (hspaced : Spaced ⟨f, s, w⟩ (.beginPass a))
    (hstep : beginPass f s a = some (f', s')) : Inv c ⟨f', s', w⟩ := by
  obtain ⟨hspan, hahead⟩ := hspaced
  have hp := h.published.beginPass hspan hstep
  obtain ⟨v, hbase, -, -, -, rfl, rfl⟩ := beginPass_cases hstep
  refine h.of_sink hp rfl (Or.inl rfl) (Or.inr ⟨v, rfl, ?_, ?_⟩) (Or.inl rfl) ?_ ?_
  · exact hbase ▸ h.published.exposed_le
  · intro hne
    obtain ⟨u, us, hws⟩ := List.exists_cons_of_ne_nil hne
    rw [hbase]
    exact Nat.zero_lt_of_lt (hspan u (by rw [show s.windows = u :: us from hws]; rfl))
  · refine Nat.lt_of_le_of_lt ?_ hahead
    rw [beyond, List.countP_cons]
    apply Nat.add_le_add_left
    split <;> decide
  · intro k hk hle
    by_cases hm : s.marksCleared = true
    · simp only [hm, if_true]
      exact h.kept k hk hle
    · have hnil : s.windows = [] := by
        by_contra hne
        exact hm (h.published.cleared hne)
      have hno : s.claims = [] := (h.published.empty hnil).2.2
      dsimp only at hk
      rw [hno] at hk
      exact absurd hk List.not_mem_nil

theorem Inv.submit {n : ℕ} (h : Inv c ⟨f, s, w⟩) (hstep : submit f s n = some (f', s')) :
    Inv c ⟨f', s', w⟩ := by
  have hp := h.published.submit hstep
  obtain ⟨-, -, rfl, rfl⟩ := submit_cases hstep
  exact h.of_sink hp rfl (Or.inl rfl) (Or.inl rfl) (Or.inl rfl) h.lead h.kept

theorem Inv.publish {v : ℕ} (h : Inv c ⟨f, s, w⟩) (hstep : publish f s v = some (f', s')) :
    Inv c ⟨f', s', w⟩ := by
  have hp := h.published.publish hstep
  obtain ⟨-, hle, -, rfl, rfl⟩ := publish_cases hstep
  exact h.of_sink hp rfl (Or.inr ⟨rfl, hle⟩) (Or.inl rfl) (Or.inl rfl) h.lead h.kept

theorem Inv.claim (h : Inv c ⟨f, s, w⟩) (hspaced : Spaced ⟨f, s, w⟩ .claim)
    (hstep : claim f s = some (f', s')) : Inv c ⟨f', s', w⟩ := by
  have hp := h.published.claim hstep
  obtain ⟨-, hmod, rfl, rfl⟩ := claim_cases hstep
  have hstart : s.nextSpan / chunk * chunk = s.nextSpan :=
    Nat.div_mul_cancel (Nat.dvd_of_mod_eq_zero hmod)
  refine h.of_sink hp rfl (Or.inl rfl) (Or.inl rfl) (Or.inr ⟨_, rfl, ?_⟩) h.lead ?_
  · rw [hstart]
    exact h.published.exposed_le
  · intro k hk hle
    rw [Fabric.markInline]
    dsimp only
    obtain heq | hne := eq_or_ne (k % rxChunkCap) (s.nextSpan / chunk % rxChunkCap)
    · obtain rfl | hold := List.mem_cons.mp hk
      · rw [Function.update_self]
      · obtain hsame | hpast := hspaced k hold heq
        · rw [heq, Function.update_self, hsame]
        · exact absurd hle (Nat.not_le_of_lt hpast)
    · rw [Function.update_of_ne hne]
      obtain rfl | hold := List.mem_cons.mp hk
      · exact absurd rfl hne
      · exact h.kept k hold hle

theorem Inv.endPass (h : Inv c ⟨f, s, w⟩) (hstep : endPass f s = some (f', s')) :
    Inv c ⟨f', s', w⟩ := by
  have hp := h.published.endPass hstep
  have hle := h.published.exposed_le
  obtain ⟨-, rfl, rfl⟩ := endPass_cases hstep
  exact h.of_sink hp rfl (Or.inr ⟨rfl, hle⟩) (Or.inl rfl) (Or.inl rfl) h.lead h.kept

theorem Inv.step (hl : c.laneIdx < c.nLanes) (hwb : 0 < c.wbatch) {i : Label} (h : Inv c t)
    (hspaced : Spaced t i) (hstep : step c t i = some t') : Inv c t' := by
  obtain ⟨f, s, w⟩ := t
  cases i with
  | worker =>
      obtain ⟨w', hw', rfl⟩ := Option.map_eq_some_iff.mp hstep
      obtain hidle | hwalked := h.worker
      · obtain ⟨w₁, hw₁, hinv, -⟩ := h.idle_step hl hidle
        obtain rfl := Option.some_inj.mp (hw₁.symm.trans hw')
        exact hinv
      · obtain ⟨w₁, hw₁, hinv⟩ := h.stepped hl hwb hwalked
        obtain rfl := Option.some_inj.mp (hw₁.step.symm.trans hw')
        exact hinv
  | beginPass a =>
      obtain ⟨⟨f', s'⟩, hs, rfl⟩ := Option.map_eq_some_iff.mp hstep
      exact h.beginPass hspaced hs
  | submit n =>
      obtain ⟨⟨f', s'⟩, hs, rfl⟩ := Option.map_eq_some_iff.mp hstep
      exact h.submit hs
  | publish v =>
      obtain ⟨⟨f', s'⟩, hs, rfl⟩ := Option.map_eq_some_iff.mp hstep
      exact h.publish hs
  | claim =>
      obtain ⟨⟨f', s'⟩, hs, rfl⟩ := Option.map_eq_some_iff.mp hstep
      exact h.claim hspaced hs
  | endPass =>
      obtain ⟨⟨f', s'⟩, hs, rfl⟩ := Option.map_eq_some_iff.mp hstep
      exact h.endPass hs

/-! ## Whole runs -/

/-- A bound on the rank. -/
def lap (s : Sink) : ℕ := s.windows.length + 1000

theorem rank_lt (c : Config) (s : Sink) (w : Worker) : rank c s w < lap s := by
  rw [rank, lap]
  split
  · exact Nat.lt_of_le_of_lt List.countP_le_length (Nat.lt_add_of_pos_right (by decide))
  · split <;> omega
  · split <;> omega
  · split <;> omega
  · omega
  · omega

/-- Left to itself, a worker that has seen the generation visits everything exposed. -/
theorem Inv.finish_walked (hl : c.laneIdx < c.nLanes) (hwb : 0 < c.wbatch) (m : ℕ)
    (h : Inv c ⟨f, s, w⟩) (hw : Walked c f s w)
    (hm : (f.ready.2 - w.pos) * lap s + rank c s w < m) :
    ∃ n w', Transition.run (RxWorker.step c) ⟨f, s, w⟩ (List.replicate n .worker) = some ⟨f, s, w'⟩ ∧
      w'.visits.map Visit.gid = due c s.claims f.ready.2 := by
  induction m generalizing w with
  | zero => exact absurd hm (Nat.not_lt_zero _)
  | succ m ih =>
      obtain hlt | hge := Nat.lt_or_ge w.pos f.ready.2
      · obtain ⟨w', hstep, hinv⟩ := h.stepped hl hwb hw
        have hless : (f.ready.2 - w'.pos) * lap s + rank c s w' < m := by
          apply Nat.lt_of_lt_of_le _ (Nat.le_of_lt_succ hm)
          obtain hpos | hrank := hstep.progress hlt
          · have hfar : f.ready.2 - w'.pos + 1 ≤ f.ready.2 - w.pos := by omega
            have hmul := Nat.mul_le_mul_right (lap s) hfar
            have hbound := rank_lt c s w'
            rw [Nat.succ_mul] at hmul
            omega
          · have hnear : f.ready.2 - w'.pos ≤ f.ready.2 - w.pos := Nat.sub_le_sub_left hstep.pos _
            have hmul := Nat.mul_le_mul_right (lap s) hnear
            omega
        obtain ⟨n, w'', hrun, hdone⟩ := ih hinv hstep.walked hless
        refine ⟨n + 1, w'', ?_, hdone⟩
        rw [List.replicate_succ]
        refine Transition.run_cons.mpr ⟨_, ?_, hrun⟩
        exact Option.map_eq_some_iff.mpr ⟨w', hstep.step, rfl⟩
      · refine ⟨0, w, rfl, hw.log.order.trans ?_⟩
        apply due_skip hge
        intro i hlo hhi hown
        by_contra hclaim
        exact Nat.not_lt_of_le hlo (hw.log.below i hown hclaim hhi)

/-- Left to itself, the worker visits everything exposed. -/
theorem Inv.finish (hl : c.laneIdx < c.nLanes) (hwb : 0 < c.wbatch) (h : Inv c ⟨f, s, w⟩) :
    ∃ n w', Transition.run (RxWorker.step c) ⟨f, s, w⟩ (List.replicate n .worker) = some ⟨f, s, w'⟩ ∧
      w'.visits.map Visit.gid = due c s.claims (exposed f s) := by
  have hwalked : ∀ {w}, Inv c ⟨f, s, w⟩ → Walked c f s w → ∃ n w',
      Transition.run (RxWorker.step c) ⟨f, s, w⟩ (List.replicate n .worker) = some ⟨f, s, w'⟩ ∧
        w'.visits.map Visit.gid = due c s.claims (exposed f s) := by
    intro w h hw
    rw [exposed, if_pos hw.shown]
    exact h.finish_walked hl hwb _ hw (Nat.lt_succ_self _)
  have hcons : ∀ {w w'}, w.step c f = some w' → (∃ n w'',
      Transition.run (RxWorker.step c) ⟨f, s, w'⟩ (List.replicate n .worker) = some ⟨f, s, w''⟩ ∧
        w''.visits.map Visit.gid = due c s.claims (exposed f s)) → ∃ n w'',
      Transition.run (RxWorker.step c) ⟨f, s, w⟩ (List.replicate n .worker) = some ⟨f, s, w''⟩ ∧
        w''.visits.map Visit.gid = due c s.claims (exposed f s) := by
    rintro w w' hstep ⟨n, w'', hrun, hdone⟩
    refine ⟨n + 1, w'', ?_, hdone⟩
    rw [List.replicate_succ]
    exact Transition.run_cons.mpr ⟨_, Option.map_eq_some_iff.mpr ⟨w', hstep, rfl⟩, hrun⟩
  obtain hidle | hw := h.worker
  · by_cases hshown : f.ready.1 = s.gen
    · obtain ⟨w₁, hstep₁, hinv₁, hnext₁⟩ := h.idle_step hl hidle
      apply hcons hstep₁
      obtain hw₁ | ⟨hidle₁, -, htop⟩ := hnext₁ hshown
      · exact hwalked hinv₁ hw₁
      · obtain ⟨w₂, hstep₂, hinv₂, hnext₂⟩ := hinv₁.idle_step hl hidle₁
        apply hcons hstep₂
        obtain hw₂ | ⟨-, hno, -⟩ := hnext₂ hshown
        · exact hwalked hinv₂ hw₂
        · exact absurd htop hno
    · refine ⟨0, w, rfl, ?_⟩
      rw [exposed, if_neg hshown, hidle.visits]
      rfl
  · exact hwalked h hw

/-- Every span has been read from the row of the window that holds it; the segments make up the
visits and no pass start is inside one; the visits are the due positions in order, all of them
exposed; and the worker's own steps lead on to all that are. -/
structure Resolves (c : Config) (t : State) : Prop where
  window : ∀ v ∈ t.worker.visits, ∃ w, owner t.sink.windows v.gid = some w ∧
    v.gid < t.sink.nextSpan ∧ v.arrSlot = w.arrSlot ∧ v.idx = v.gid - w.base
  covers : t.worker.segs.flatMap (fun r => List.range' r.1 r.2) = t.worker.visits.map Visit.gid
  split : ∀ r ∈ t.worker.segs, ∀ w ∈ t.sink.windows, w.passStart = true →
    ¬ (r.1 < w.base ∧ w.base < r.1 + r.2)
  order : ∃ bound, t.worker.visits.map Visit.gid = due c t.sink.claims bound
  shown : ∀ v ∈ t.worker.visits, v.gid < exposed t.fabric t.sink
  finish : ∃ n t', Transition.run (step c) t (List.replicate n .worker) = some t' ∧
    t'.worker.visits.map Visit.gid = due c t.sink.claims (exposed t.fabric t.sink)

theorem Inv.resolves (hl : c.laneIdx < c.nLanes) (hwb : 0 < c.wbatch) (h : Inv c t) :
    Resolves c t := by
  obtain ⟨f, s, w⟩ := t
  obtain ⟨n, w', hrun, hdone⟩ := h.finish hl hwb
  have hfinish : ∃ n t', Transition.run (RxWorker.step c) ⟨f, s, w⟩ (List.replicate n .worker) =
      some t' ∧ t'.worker.visits.map Visit.gid = due c s.claims (exposed f s) := ⟨n, _, hrun, hdone⟩
  obtain hidle | hw := h.worker
  · have hvisits : w.visits = [] := hidle.visits
    have hres : w.res = [] := hidle.res
    have hseg : w.segLen = 0 := hidle.segLen
    refine ⟨?_, ?_, ?_, ⟨0, ?_⟩, ?_, hfinish⟩ <;> dsimp only
    · simp [hvisits]
    · simp [Worker.segs, hvisits, hres, hseg]
    · intro r hr u _ _ hin
      rw [Worker.segs, hres, hseg] at hr
      rw [List.mem_singleton.mp hr] at hin
      omega
    · rw [hvisits]
      rfl
    · simp [hvisits]
  · have hexp : exposed f s = f.ready.2 := if_pos hw.shown
    refine ⟨?_, hw.log.covers, hw.log.split, ⟨_, hw.log.order⟩, ?_, hfinish⟩
    · intro v hv
      obtain ⟨u, howner, harr, hidx⟩ := hw.log.reads v hv
      exact ⟨u, howner, Nat.lt_of_lt_of_le (hw.log.visit_lt hv) (h.published.ready hw.shown).2,
        harr, hidx⟩
    · exact fun v hv => hexp ▸ hw.log.visit_lt hv

/-- In a run whose passes each hold a span before the next one opens, with fewer than `recRing`
windows ahead of the worker, the worker resolves every span to its own window. -/
theorem resolves_of_spaced (hl : c.laneIdx < c.nLanes) (hwb : 0 < c.wbatch) (h₀ : Start t)
    (hrun : Transition.Reachable (spacedStep c) t t') : Resolves c t' := by
  have hinv : Inv c t' := by
    refine Transition.invariant (P := Inv c) ?_ h₀.inv hrun
    intro t i t' h hstep
    rw [spacedStep] at hstep
    split at hstep
    · exact h.step hl hwb ‹_› hstep
    · cases hstep
  exact hinv.resolves hl hwb

/-- Two passes and a worker that evaluates their spans. -/
theorem resolves_of_spaced_two : ∃ t, Start State.new ∧
    Transition.Reachable (spacedStep ⟨0, 1, 512, true⟩) .new t ∧
    t.worker.visits = [⟨0, 0, 0⟩, ⟨1, 1, 0⟩] ∧ Resolves ⟨0, 1, 512, true⟩ t := by
  have hrun : Transition.Reachable (spacedStep ⟨0, 1, 512, true⟩) .new
      ((Transition.run (spacedStep ⟨0, 1, 512, true⟩) .new
        ([.beginPass 0, .submit 1, .endPass, .beginPass 1, .submit 1, .endPass] ++
          List.replicate 12 .worker)).get (by decide)) := ⟨_, (Option.some_get _).symm⟩
  exact ⟨_, .new, hrun, by decide, resolves_of_spaced (by decide) (by decide) .new hrun⟩

/-- Behind an empty pass a worker never leaves the empty window's record. -/
theorem empty_pass_strands : ∃ t, Start State.new ∧
    Transition.Reachable (step ⟨0, 1, 512, true⟩) .new t ∧ t.ahead < recRing ∧
    t.sink.claims = [] ∧ ⟨3, 1, 0⟩ ∈ t.worker.visits ∧
    owner t.sink.windows 3 = some ⟨3, 2, 2, true⟩ ∧ ¬ Resolves ⟨0, 1, 512, true⟩ t := by
  have hrun : Transition.Reachable (step ⟨0, 1, 512, true⟩) .new
      ((Transition.run (step ⟨0, 1, 512, true⟩) .new
        ([.beginPass 0, .submit 3, .endPass, .beginPass 1, .endPass, .beginPass 2, .submit 1,
          .endPass] ++ List.replicate 18 .worker)).get (by decide)) :=
    ⟨_, (Option.some_get _).symm⟩
  refine ⟨_, .new, hrun, by decide, by decide, by decide, by decide, fun h => ?_⟩
  obtain ⟨w, howner, -, harr, -⟩ := h.window ⟨3, 1, 0⟩ (by decide)
  have hslot : w = ⟨3, 2, 2, true⟩ := Option.some_inj.mp (howner.symm.trans (by decide))
  rw [hslot] at harr
  exact absurd harr (by decide)

end HftProj.Testkit.RxWorker
