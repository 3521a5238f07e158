import HftProj.Transport.PipelineStream

/-!
# What the consumer receives

A consumer that drains every pass, by batches or by groups, reads every turn once and in order. So
it receives the frames of a pass in the order of the polls, and then those of the next.
-/

namespace HftProj.Transport.Pipeline

open HftProj.Lib HftProj.Lib.TurnRing HftProj.Protocol.Moldudp64 ReplayTransport

/-! ## A consumer that drains -/

/-- A reset of the pass is called at the end of stream only, and no other reset. -/
def Cons.drains (k : Cons) : Call → Bool
  | .reset _ => false
  | .resetPass _ _ => k.atEos
  | _ => true

/-- A lawful step of a consumer that drains. -/
def drainingStep (c : Config) (s : State) : Act → Option State
  | .call call => if s.cons.drains call then lawfulStep c s (.call call) else none
  | a => lawfulStep c s a

/-- The ceiling of an abandon stands at the cursor. -/
def Cons.Heeds (k : Cons) : Prop :=
  match k.pc with
  | .drain call | .drainFlag call | .drainSwap call | .drainBump call | .drainWakeup call =>
      k.drains call = true
  | .resetCnt | .resetCmd | .resetBump | .resetWakeup => False
  | .ack | .ackObserve | .ackRecheck _ | .ackSleep _ | .ackAsleep | .ackTurn | .ackFree _ _ => False
  | .pass _ _ | .passBake _ _ _ | .passTurn _ _ | .passEos _ _ _ => k.cap = some k.turn
  | .passObserve _ _ | .passRecheck _ _ _ | .passSleep _ _ _ | .passAsleep _ _ =>
      k.cap = some k.turn
  | .passFree _ stop _ => k.cap = some k.turn ∧ stop ≤ k.turn
  | _ => True

/-- Every turn so far has been read. -/
structure Drained (k : Cons) (reads : List (ℕ × PubMeta)) : Prop where
  turns : reads.map Prod.fst = List.range (k.turn + k.pc.swept)
  heeds : k.Heeds

section Steps

variable {c : Config} {s s' : State}

theorem Drained.afterDrain {m : Mailbox} {k : Cons} {reads : List (ℕ × PubMeta)} {call : Call}
    (hturns : reads.map Prod.fst = List.range k.turn) (h : k.drains call = true) :
    Drained (k.afterDrain m call).2 reads := by
  cases call with
  | reset session => cases h
  | resetPass target session => exact ⟨hturns, if_pos h⟩
  | _ => exact ⟨hturns, trivial⟩

/-- The next turn is read. -/
theorem turns_concat {reads : List (ℕ × PubMeta)} {t : ℕ} (pub : PubMeta)
    (hturns : reads.map Prod.fst = List.range t) :
    (reads ++ [(t, pub)]).map Prod.fst = List.range (t + 1) := by
  rw [List.map_append, hturns, List.range_succ]
  rfl

theorem Drained.loadStep {call : Call} (hpc : s.cons.pc = .load call)
    (hturns : s.reads.map Prod.fst = List.range s.cons.turn) :
    Drained (s.loadStep c call).cons (s.loadStep c call).reads := by
  rw [State.loadStep]
  split
  · split
    · exact ⟨hturns, trivial⟩
    · exact ⟨hturns, trivial⟩
  · split
    · refine ⟨?_, ?_⟩
      · rw [State.withCons, hpc]
        exact hturns
      · rw [State.withCons, Cons.Heeds, hpc]
        trivial
    · split
      · exact ⟨hturns, trivial⟩
      · exact ⟨hturns, trivial⟩

theorem Drained.lenStep (call : Call)
    (hturns : s.reads.map Prod.fst = List.range s.cons.turn) :
    Drained (s.lenStep c call).cons (s.lenStep c call).reads := by
  have hread := turns_concat (s.record c s.cons.turn) hturns
  by_cases hlen : (s.record c s.cons.turn).len = 0
  · have heq : s.lenStep c call = _ := if_pos hlen
    rw [heq]
    exact ⟨hread, trivial⟩
  · have heq : s.lenStep c call = _ := if_neg hlen
    rw [heq]
    cases call <;> exact ⟨hread, trivial⟩

theorem Drained.passStep {target baked : ℕ} {session : SessionId}
    (hturns : s.reads.map Prod.fst = List.range s.cons.turn)
    (hcap : s.cons.cap = some s.cons.turn) :
    Drained (s.passStep target baked session).cons (s.passStep target baked session).reads := by
  rw [State.passStep]
  split
  · split
    · exact ⟨hturns, trivial⟩
    · exact ⟨hturns, trivial⟩
  · exact ⟨hturns, hcap⟩

theorem Drained.cons_step (h : Drained s.cons s.reads) (hstep : s.consStep c = some s') :
    Drained s'.cons s'.reads := by
  obtain ⟨hturns, hheeds⟩ := h
  rw [State.consStep] at hstep
  rw [Cons.Heeds] at hheeds
  cases hk : s.cons.pc with
  | load call =>
      rw [hk] at hstep hturns
      obtain rfl := Option.some.inj hstep
      exact .loadStep hk hturns
  | len call =>
      rw [hk] at hstep hturns
      obtain rfl := Option.some.inj hstep
      exact .lenStep call hturns
  | sweepLen width n =>
      rw [hk] at hstep hturns
      dsimp only at hstep
      split at hstep
      · obtain rfl := Option.some.inj hstep
        exact ⟨hturns, trivial⟩
      · obtain rfl := Option.some.inj hstep
        exact ⟨turns_concat _ hturns, trivial⟩
  | passBake target baked session =>
      rw [hk] at hstep hturns hheeds
      obtain rfl := Option.some.inj hstep
      exact .passStep hturns hheeds
  | passEos target rxTurn session =>
      rw [hk] at hstep hturns hheeds
      have hheeds : s.cons.cap = some s.cons.turn := hheeds
      obtain rfl := Option.some.inj hstep
      have hcap : State.ceiling s.mail s.cons = some s.cons.turn := by
        rw [State.ceiling, hheeds]
      refine ⟨hturns, hcap, ?_⟩
      rw [hcap]
      exact Nat.min_le_right _ _
  | passFree target stop session =>
      rw [hk] at hstep hturns hheeds
      obtain ⟨hcap, hle⟩ := hheeds
      dsimp only at hstep
      split at hstep
      · next hlt => exact absurd hle (Nat.not_le_of_lt hlt)
      · split at hstep
        · obtain rfl := Option.some.inj hstep
          exact ⟨hturns, hcap⟩
        · obtain rfl := Option.some.inj hstep
          exact ⟨hturns, hcap⟩
  | _ =>
      -- No other point moves the cursor past what has been read.
      rw [hk] at hstep hturns hheeds
      dsimp only at hstep
      repeat' split at hstep
      all_goals first
        | exact hheeds.elim
        | (cases hstep; done)
        | (obtain rfl := Option.some.inj hstep
           first
             | exact ⟨hturns, hheeds⟩
             | exact ⟨hturns, trivial⟩
             | exact Drained.afterDrain hturns hheeds)

theorem Drained.call (h : Drained s.cons s.reads) (hpc : s.cons.pc = .idle) {call : Call}
    (hdrains : s.cons.drains call = true) : Drained (s.cons.start c call) s.reads := by
  have hturns : s.reads.map Prod.fst = List.range s.cons.turn := by
    have hturns := h.turns
    rwa [hpc] at hturns
  cases call with
  | selectGroupBatch j =>
      rw [Cons.start]
      split
      · refine ⟨?_, ?_⟩
        · rw [hpc]
          exact hturns
        · rw [Cons.Heeds, hpc]
          trivial
      · exact h
  | reset session => cases hdrains
  | resetPass target session =>
      rw [Cons.start]
      split
      · exact ⟨hturns, hdrains⟩
      · exact ⟨hturns, trivial⟩
  | nextBatch => exact ⟨hturns, rfl⟩
  | nextGroup k => exact ⟨hturns, rfl⟩
  | drop => exact ⟨hturns, trivial⟩

theorem Drained.step (h : Drained s.cons s.reads) {a : Act}
    (hstep : drainingStep c s a = some s') : Drained s'.cons s'.reads := by
  cases a with
  | rx =>
      obtain ⟨r, -, rfl⟩ := Option.map_eq_some_iff.mp hstep
      exact h
  | rxReturn =>
      obtain ⟨r, -, rfl⟩ := Option.map_eq_some_iff.mp hstep
      exact h
  | cons => exact h.cons_step hstep
  | consReturn =>
      obtain ⟨hturns, hheeds⟩ := h
      have hstep : s.consReturn = some s' := hstep
      rw [State.consReturn] at hstep
      rw [Cons.Heeds] at hheeds
      dsimp only at hstep
      split at hstep
      · next hpc =>
        rw [hpc] at hturns
        cases hstep
        exact ⟨hturns, trivial⟩
      · next hpc =>
        rw [hpc] at hheeds
        exact hheeds.elim
      · next hpc =>
        rw [hpc] at hturns hheeds
        cases hstep
        exact ⟨hturns, hheeds⟩
      · cases hstep
  | call call =>
      rw [drainingStep] at hstep
      split at hstep
      · next hdrains =>
        rw [lawfulStep] at hstep
        split at hstep
        · rw [Pipeline.step] at hstep
          split at hstep
          · next hpc =>
            cases hstep
            exact h.call hpc hdrains
          · cases hstep
        · cases hstep
      · cases hstep

theorem lawfulStep_of_draining {a : Act} (hstep : drainingStep c s a = some s') :
    lawfulStep c s a = some s' := by
  cases a with
  | call call =>
      rw [drainingStep] at hstep
      split at hstep
      · exact hstep
      · cases hstep
  | _ => exact hstep

end Steps

/-! ## Deliveries -/

section Deliveries

variable {c : Config} {t₀ : ReplayTransport} {s : State}

/-- What a consumer that drains has read is what has been published, turn by turn. -/
theorem reads_eq_log (h : Transition.Reachable (drainingStep c) (init c t₀) s) :
    s.reads.map Prod.snd = s.log.take (s.cons.turn + s.cons.pc.swept) := by
  have hstart : Drained (init c t₀).cons (init c t₀).reads := ⟨rfl, trivial⟩
  have hinv : Drained s.cons s.reads ∧ Sound c s := by
    refine Transition.invariant (P := fun s => Drained s.cons s.reads ∧ Sound c s)
      (fun s a s' hs hstep => ?_) ⟨hstart, sound_init c t₀⟩ h
    exact ⟨hs.1.step hstep, hs.2.step (lawfulStep_of_draining hstep)⟩
  obtain ⟨hdrained, hsound⟩ := hinv
  have hlen : s.reads.length = s.cons.turn + s.cons.pc.swept := by
    have hlen := congrArg List.length hdrained.turns
    rwa [List.length_map, List.length_range] at hlen
  apply List.ext_getElem?
  intro i
  rw [List.getElem?_map, List.getElem?_take]
  split
  · next hlt =>
    have hi : i < s.reads.length := hlen ▸ hlt
    have hfst := congrArg (fun l => l[i]?) hdrained.turns
    have hturn : s.reads[i].1 = i := by
      simpa [List.getElem?_eq_getElem hi, List.getElem?_range hlt] using hfst
    have hread := hsound.reads _ (List.getElem_mem hi)
    rw [hturn] at hread
    rw [hread, List.getElem?_eq_getElem hi]
    rfl
  · next hge =>
    rw [List.getElem?_eq_none (by omega)]
    rfl

/-- The rows of a table that the records name, one record after the other. -/
def delivered {α : Type*} (table : List α) (records : List PubMeta) : List α :=
  records.flatMap fun pub => slice table pub.rxStart (pub.rxStart + pub.len)

/-- How many frames a pass publishes. -/
def passFrames (t₀ : ReplayTransport) : ℕ := ((walk t₀ 0).map PubMeta.len).sum

theorem delivered_pass {α : Type*} (table : List α) (t₀ : ReplayTransport) :
    delivered table (passRecords t₀) = table.take (passFrames t₀) := by
  have hmarker : delivered table [PubMeta.EMPTY] = [] := by
    rw [delivered, List.flatMap_singleton]
    exact slice_zero table 0
  have htiles := tiles_slices table (walk_tiles t₀ 0)
  rw [Nat.zero_add, slice_zero] at htiles
  rw [delivered] at hmarker ⊢
  rw [passRecords, List.flatMap_append, hmarker, List.append_nil]
  exact htiles

theorem delivered_prefix {α : Type*} (table : List α) {records more : List PubMeta}
    (h : records <+: more) : delivered table records <+: delivered table more := by
  obtain ⟨rest, rfl⟩ := h
  rw [delivered, delivered, List.flatMap_append]
  exact List.prefix_append _ _

theorem delivered_replicate {α : Type*} (table : List α) (n : ℕ) (full : List PubMeta) :
    delivered table (List.replicate n full).flatten =
      (List.replicate n (delivered table full)).flatten := by
  induction n with
  | zero => rfl
  | succ n ih =>
      rw [List.replicate_succ, List.flatten_cons, delivered, List.flatMap_append,
        List.replicate_succ, List.flatten_cons, ← ih]
      rfl

/-- A pass publishes every frame of the directory if no run of tombstones ends it early. -/
theorem passFrames_of_fed {gt : List UInt8} {sched : ReplaySchedule} {k : ℕ}
    (hfed : Fed gt sched (max k 1)) (session : SessionId) :
    passFrames ((new gt sched session).setPollCoalesce k) =
      ((new gt sched session).setPollCoalesce k).emittedMetas.length := by
  have hpoised := reset_poised gt sched session [] k session
  have hdrains := hpoised.drains hfed (Nat.le_max_right k 1) .start
  have hpace : Pace ((((new gt sched session).applyAll []).setPollCoalesce k).reset session)
      ((new gt sched session).setPollCoalesce k) := ⟨⟨rfl, rfl, rfl, rfl, rfl, rfl⟩, rfl, rfl⟩
  have hlisted := congrArg List.length (hpoised.listed sched.events.length)
  rw [List.length_map] at hlisted
  have hsize : sched.events.length = ((new gt sched session).setPollCoalesce k).metas.length :=
    hpoised.entries.length_eq
  rw [passFrames, walk_drains (hdrains.pace hpace), emittedMetas_length, ← hsize]
  exact hlisted.symm

/-- A consumer that drains every pass of a transport with a program receives the frames of a pass
in the order of the polls, each once, and then those of the next pass: all the frames of the
directory where no run of tombstones ends a pass early. -/
theorem delivers_exactly_once (gt : List UInt8) (sched : ReplaySchedule) (session : SessionId)
    (k : ℕ) (hprogram : c.autoFn ≠ none)
    (h : Transition.Reachable (drainingStep c)
      (init c ((new gt sched session).setPollCoalesce k)) s)
    {α : Type*} (table : List α)
    (htable : table.length = ((new gt sched session).setPollCoalesce k).emittedMetas.length) :
    passFrames ((new gt sched session).setPollCoalesce k) ≤ table.length ∧
      delivered table (s.reads.map Prod.snd) <+: (List.replicate (s.rx.pass + 1)
        (table.take (passFrames ((new gt sched session).setPollCoalesce k)))).flatten ∧
      (Fed gt sched (max k 1) → delivered table (s.reads.map Prod.snd) <+:
        (List.replicate (s.rx.pass + 1) table).flatten) := by
  have hfresh := new_fresh gt sched session k
  have hrun := h.mono fun _ _ _ hstep => step_of_lawful (lawfulStep_of_draining hstep)
  have hreads : s.reads.map Prod.snd <+: _ :=
    ((reads_eq_log h) ▸ List.take_prefix _ _).trans (log_of_program hfresh hprogram hrun)
  have hall := delivered_prefix table hreads
  rw [delivered_replicate, delivered_pass] at hall
  refine ⟨htable ▸ passFrames_le hfresh, hall, fun hfed => ?_⟩
  rw [passFrames_of_fed hfed, ← htable, List.take_length] at hall
  exact hall

end Deliveries

theorem twoHeartbeats_fed : Fed [] twoHeartbeats 1 := by
  intro a _ hrest
  obtain ⟨i, hai, hrenders⟩ := hrest
  have hlt : i < 2 := renders_lt hrenders
  obtain rfl | rfl : a = 0 ∨ a = 1 := by omega
  · exact ⟨0, by decide⟩
  · exact ⟨1, by decide⟩

theorem firstBatch_reads :
    ∃ s, Transition.run (drainingStep selfAdvancing) started firstBatch = some s ∧
      s.reads = [(0, ⟨2, 0, 2⟩)] :=
  Option.map_eq_some_iff.mp (by decide +kernel)

theorem delivers_exactly_once_firstBatch :
    ∃ s, Transition.run (drainingStep selfAdvancing) started firstBatch = some s ∧
      s.reads = [(0, ⟨2, 0, 2⟩)] ∧
      delivered ['a', 'b'] (s.reads.map Prod.snd) <+:
        (List.replicate (s.rx.pass + 1) ['a', 'b']).flatten := by
  obtain ⟨s, hrun, hreads⟩ := firstBatch_reads
  have hframes : ['a', 'b'].length = ((new [] twoHeartbeats
      (.repeated 0)).setPollCoalesce 1).emittedMetas.length := by decide +kernel
  exact ⟨s, hrun, hreads, (delivers_exactly_once [] twoHeartbeats _ 1 (Option.some_ne_none _)
    ⟨firstBatch, hrun⟩ ['a', 'b'] hframes).2.2 twoHeartbeats_fed⟩

end HftProj.Transport.Pipeline
