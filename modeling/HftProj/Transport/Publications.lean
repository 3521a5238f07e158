import HftProj.Transport.Drain
import HftProj.Transport.Mailbox
import HftProj.Transport.Master

/-!
# The publications of a pass

A pass is walked in publications of whole polls. The walk is the same whatever session the blob
carries, its publications tile the frames that the polls release, and each of them names the
entries of the master that belong to its frames.
-/

namespace HftProj.Transport

open HftProj.Lib HftProj.Protocol.Moldudp64

namespace ReplayTransport

/-! ## What a poll reads -/

/-- The parts of the transport that no operation of a pass changes. -/
structure Static (t t' : ReplayTransport) : Prop where
  schedule : t'.schedule = t.schedule
  metas : t'.metas = t.metas
  vts : t'.vts = t.vts
  groupEnd : t'.groupEnd = t.groupEnd
  coalesce : t'.coalesce = t.coalesce
  clockClamp : t'.clockClamp = t.clockClamp

/-- Two transports that poll alike. -/
structure Pace (t t' : ReplayTransport) : Prop extends Static t t' where
  eventIdx : t'.eventIdx = t.eventIdx
  virtualClock : t'.virtualClock = t.virtualClock

variable {t t' t'' : ReplayTransport}

theorem Static.trans (h : Static t t') (h' : Static t' t'') : Static t t'' :=
  ⟨h'.schedule.trans h.schedule, h'.metas.trans h.metas, h'.vts.trans h.vts,
    h'.groupEnd.trans h.groupEnd, h'.coalesce.trans h.coalesce, h'.clockClamp.trans h.clockClamp⟩

theorem releaseLoop_static (h : Static t t') (exactPacing : Bool) (vclock limitEvt cap fuel evt : ℕ)
    (out : List (ℕ × FrameMeta)) :
    t'.releaseLoop exactPacing vclock limitEvt cap fuel evt out =
      t.releaseLoop exactPacing vclock limitEvt cap fuel evt out := by
  induction fuel generalizing evt out with
  | zero => rfl
  | succ fuel ih => simp only [releaseLoop, h.vts, h.metas, ih]

theorem releaseChain_static (h : Static t t') (limit : Option ℕ) (groups e mx : ℕ) :
    t'.releaseChain limit groups e mx = t.releaseChain limit groups e mx := by
  induction groups generalizing e mx with
  | zero => rfl
  | succ groups ih => simp only [releaseChain, h.vts, h.metas, h.groupEnd, ih]

/-- Transports that poll alike release the same frames, and still poll alike. -/
theorem pollEvents_pace (h : Pace t t') (maxVt : Option ℕ) (cap : ℕ) :
    (t'.pollEvents maxVt cap).2 = (t.pollEvents maxVt cap).2 ∧
      Pace (t.pollEvents maxVt cap).1 (t'.pollEvents maxVt cap).1 := by
  have hstatic := h.toStatic
  simp only [pollEvents, h.eventIdx, h.virtualClock, h.metas, h.vts, h.coalesce, h.clockClamp,
    releaseLoop_static hstatic, releaseChain_static hstatic]
  split
  · exact ⟨rfl, h⟩
  · exact ⟨rfl, ⟨hstatic.schedule, rfl, rfl, hstatic.groupEnd, rfl, rfl⟩, rfl, rfl⟩

theorem releaseLoop_length (t : ReplayTransport) (exactPacing : Bool)
    (vclock limitEvt cap fuel evt : ℕ) {out : List (ℕ × FrameMeta)} (hout : out.length ≤ cap) :
    (t.releaseLoop exactPacing vclock limitEvt cap fuel evt out).2.length ≤ cap := by
  induction fuel generalizing evt out with
  | zero => exact hout
  | succ fuel ih =>
      simp only [releaseLoop]
      split
      · next hroom =>
        split
        · exact hout
        split
        · exact ih _ hout
        · apply ih
          rw [List.length_append, List.length_singleton]
          exact hroom.2
      · exact hout

theorem pollEvents_length (t : ReplayTransport) (maxVt : Option ℕ) (cap : ℕ) :
    (t.pollEvents maxVt cap).2.length ≤ cap := by
  rw [pollEvents]
  split
  · exact Nat.zero_le _
  · exact t.releaseLoop_length _ _ _ _ _ _ (Nat.zero_le _)

theorem pollEvents_static (t : ReplayTransport) (maxVt : Option ℕ) (cap : ℕ) :
    Static t (t.pollEvents maxVt cap).1 := by
  obtain ⟨eventIdx, virtualClock, heq⟩ := t.pollEvents_frame maxVt cap
  rw [heq]
  exact ⟨rfl, rfl, rfl, rfl, rfl, rfl⟩

theorem listed_append (metas : List FrameMeta) {a b c : ℕ} (hab : a ≤ b) (hbc : b ≤ c) :
    listed metas a b ++ listed metas b c = listed metas a c := by
  obtain ⟨m, rfl⟩ := Nat.exists_eq_add_of_le hab
  obtain ⟨n, rfl⟩ := Nat.exists_eq_add_of_le hbc
  rw [listed, listed, listed, ← List.filterMap_append]
  congr 1
  have hm : a + m - a = m := by omega
  have hn : a + m + n - (a + m) = n := by omega
  have hmn : a + m + n - a = m + n := by omega
  rw [hm, hn, hmn, ← List.range'_append_1]

/-- The rows of the master are the frames in the order of the polls. -/
theorem emittedMetas_eq (t : ReplayTransport) :
    t.emittedMetas = (listed t.metas 0 t.metas.length).map Prod.swap := by
  have hrows (l : List FrameMeta) (k : ℕ)
      (hl : ∀ j < l.length, t.metas.getD (k + j) {} = l.getD j {}) :
      (l.zipIdx k).filter (fun row => row.1.len != 0) =
        ((List.range' k l.length).filterMap fun i =>
          if (t.metas.getD i {}).len = 0 then none else some (i, t.metas.getD i {})).map
            Prod.swap := by
    induction l generalizing k with
    | nil => rfl
    | cons m l ih =>
        have hhead := hl 0 (Nat.zero_lt_succ _)
        rw [Nat.add_zero, List.getD_cons_zero] at hhead
        have hrest := ih (k + 1) fun j hj => by
          have hnext := hl (j + 1) (Nat.succ_lt_succ hj)
          rwa [List.getD_cons_succ, ← Nat.add_assoc, Nat.add_right_comm] at hnext
        rw [List.zipIdx_cons, List.filter_cons, List.length_cons, List.range'_succ,
          List.filterMap_cons, hhead, hrest]
        by_cases hzero : m.len = 0
        · simp [hzero]
        · simp [hzero]
  have hall := hrows t.metas 0 fun j _ => by rw [Nat.zero_add]
  rw [emittedMetas, listed, Nat.sub_zero]
  exact hall

theorem listed_length_le (metas : List FrameMeta) (b : ℕ) :
    (listed metas 0 b).length ≤ (listed metas 0 metas.length).length := by
  obtain hle | hge := Nat.le_total b metas.length
  · rw [← listed_append metas (Nat.zero_le b) hle, List.length_append]
    exact Nat.le_add_right _ _
  · have htail : listed metas metas.length b = [] := by
      apply List.filterMap_eq_nil_iff.mpr
      intro i hi
      have hout : metas.length ≤ i := (List.mem_range'_1.mp hi).1
      rw [List.getD_eq_default _ _ hout]
      rfl
    rw [← listed_append metas (Nat.zero_le _) hge, htail, List.append_nil]

theorem emittedMetas_length (t : ReplayTransport) :
    t.emittedMetas.length = (listed t.metas 0 t.metas.length).length := by
  rw [emittedMetas_eq, List.length_map]

theorem released_pace (h : Pace t t') : t'.released = t.released := by
  rw [released, released, (pollEvents_pace h none BATCH_CAPACITY).1]

theorem Pace.batchEvents (h : Pace t t') (b b' : List ℕ) :
    Pace { t with batchEvent := b } { t' with batchEvent := b' } :=
  ⟨⟨h.schedule, h.metas, h.vts, h.groupEnd, h.coalesce, h.clockClamp⟩, h.eventIdx, h.virtualClock⟩

theorem Drains.pace {evts : List ℕ} (hd : Drains t evts) (h : Pace t t') : Drains t' evts := by
  induction hd generalizing t' with
  | @stop t hzero =>
      apply Drains.stop
      rw [poll_released] at hzero ⊢
      rw [released_pace h, hzero]
  | @more t evts hpos _ ih =>
      rw [← released_pace h]
      rw [poll_released, ← released_pace h, ← poll_released] at hpos
      apply Drains.more hpos
      obtain ⟨b, hb⟩ := t.poll_state
      obtain ⟨b', hb'⟩ := t'.poll_state
      apply ih
      rw [hb, hb']
      exact (pollEvents_pace h none BATCH_CAPACITY).2.batchEvents b b'

/-! ## Resets -/

/-- A transport at the start of a pass. -/
structure Fresh (t : ReplayTransport) : Prop where
  eventIdx : t.eventIdx = 0
  virtualClock : t.virtualClock = t.schedule.firstVt
  clockClamp : t.clockClamp = none

theorem new_fresh (gt : List UInt8) (sched : ReplaySchedule) (session : SessionId) (k : ℕ) :
    Fresh ((new gt sched session).setPollCoalesce k) :=
  ⟨rfl, rfl, rfl⟩

/-- Every reset polls like the first pass. -/
theorem Fresh.resetCursors (h : Fresh t) (hs : Static t t') (session : SessionId) :
    Pace t (t'.resetCursors session) :=
  ⟨⟨hs.schedule, hs.metas, hs.vts, hs.groupEnd, hs.coalesce, h.clockClamp.symm⟩,
    h.eventIdx.symm, (congrArg _ hs.schedule).trans h.virtualClock.symm⟩

theorem Fresh.reset (h : Fresh t) (hs : Static t t') (session : SessionId) :
    Pace t (t'.reset session) :=
  ⟨⟨hs.schedule, hs.metas, hs.vts, hs.groupEnd, hs.coalesce, h.clockClamp.symm⟩,
    h.eventIdx.symm, (congrArg _ hs.schedule).trans h.virtualClock.symm⟩

end ReplayTransport

namespace Pipeline

open ReplayTransport

variable {t t' : ReplayTransport}

/-! ## One publication -/

theorem accumulate_stop {acc : ℕ} (clock : ℕ) (hfits : acc + BATCH_CAPACITY ≤ ENTRY_CAP)
    (hzero : (t.pollEvents none BATCH_CAPACITY).2.length = 0) :
    Rx.accumulate t acc clock = ((t.pollEvents none BATCH_CAPACITY).1, acc, clock, true) := by
  rw [Rx.accumulate, if_pos hfits]
  exact if_pos hzero

theorem accumulate_more {acc : ℕ} (clock : ℕ) (hfits : acc + BATCH_CAPACITY ≤ ENTRY_CAP)
    (hmore : (t.pollEvents none BATCH_CAPACITY).2.length ≠ 0) :
    Rx.accumulate t acc clock =
      Rx.accumulate (t.pollEvents none BATCH_CAPACITY).1
        (acc + (t.pollEvents none BATCH_CAPACITY).2.length)
        (t.pollEvents none BATCH_CAPACITY).1.virtualClock := by
  rw [Rx.accumulate, if_pos hfits]
  exact if_neg hmore

theorem accumulate_full {acc : ℕ} (clock : ℕ) (hfull : ¬acc + BATCH_CAPACITY ≤ ENTRY_CAP) :
    Rx.accumulate t acc clock = (t, acc, clock, false) := by
  rw [Rx.accumulate, if_neg hfull]

/-- Induction along the polls of a publication. -/
@[elab_as_elim] theorem accumulate_induction {P : ReplayTransport → ℕ → ℕ → Prop}
    (stop : ∀ t acc clock, acc + BATCH_CAPACITY ≤ ENTRY_CAP →
      (t.pollEvents none BATCH_CAPACITY).2.length = 0 → P t acc clock)
    (more : ∀ t acc clock, acc + BATCH_CAPACITY ≤ ENTRY_CAP →
      (t.pollEvents none BATCH_CAPACITY).2.length ≠ 0 →
      P (t.pollEvents none BATCH_CAPACITY).1
        (acc + (t.pollEvents none BATCH_CAPACITY).2.length)
        (t.pollEvents none BATCH_CAPACITY).1.virtualClock → P t acc clock)
    (full : ∀ t acc clock, ¬acc + BATCH_CAPACITY ≤ ENTRY_CAP → P t acc clock)
    (t : ReplayTransport) (acc clock : ℕ) : P t acc clock :=
  Rx.accumulate.induct P stop more full t acc clock

/-- What the accumulation of a publication has polled. -/
structure Walked (t : ReplayTransport) (acc : ℕ) (r : ReplayTransport × ℕ × ℕ × Bool) : Prop where
  static : Static t r.1
  le : t.eventIdx ≤ r.1.eventIdx
  count : r.2.1 = acc + (listed t.metas t.eventIdx r.1.eventIdx).length
  cap : acc ≤ ENTRY_CAP → r.2.1 ≤ ENTRY_CAP
  full : r.2.2.2 = false → ENTRY_CAP < r.2.1 + BATCH_CAPACITY

theorem accumulate_walked (t : ReplayTransport) (acc clock : ℕ) :
    Walked t acc (Rx.accumulate t acc clock) := by
  induction t, acc, clock using accumulate_induction with
  | stop t acc clock hfits hzero =>
      rw [accumulate_stop clock hfits hzero]
      obtain ⟨hle, heq⟩ := t.pollEvents_eq none BATCH_CAPACITY
      refine ⟨t.pollEvents_static _ _, hle, ?_, id, nofun⟩
      have hlen := congrArg List.length heq
      exact (congrArg (acc + ·) (hlen.symm.trans hzero)).symm
  | more t acc clock hfits hmore ih =>
      rw [accumulate_more clock hfits hmore]
      obtain ⟨hle, heq⟩ := t.pollEvents_eq none BATCH_CAPACITY
      have hstatic := t.pollEvents_static none BATCH_CAPACITY
      have hcap := t.pollEvents_length none BATCH_CAPACITY
      refine ⟨hstatic.trans ih.static, hle.trans ih.le, ?_, fun _ => ih.cap ?_, ih.full⟩
      · rw [ih.count, hstatic.metas, ← listed_append t.metas hle ih.le, List.length_append,
          ← Nat.add_assoc, heq]
      · exact (Nat.add_le_add_left hcap acc).trans hfits
  | full t acc clock hfull =>
      rw [accumulate_full clock hfull]
      refine ⟨⟨rfl, rfl, rfl, rfl, rfl, rfl⟩, Nat.le_refl _, ?_, id, fun _ => ?_⟩
      · rw [listed_self]
        rfl
      · exact Nat.lt_of_not_le hfull

theorem accumulate_pace (h : Pace t t') (acc clock : ℕ) :
    (Rx.accumulate t' acc clock).2 = (Rx.accumulate t acc clock).2 ∧
      Pace (Rx.accumulate t acc clock).1 (Rx.accumulate t' acc clock).1 := by
  induction t, acc, clock using accumulate_induction generalizing t' with
  | stop t acc clock hfits hzero =>
      obtain ⟨hlist, hpace⟩ := pollEvents_pace h none BATCH_CAPACITY
      rw [accumulate_stop clock hfits hzero, accumulate_stop clock hfits (hlist ▸ hzero)]
      exact ⟨rfl, hpace⟩
  | more t acc clock hfits hmore ih =>
      obtain ⟨hlist, hpace⟩ := pollEvents_pace h none BATCH_CAPACITY
      rw [accumulate_more clock hfits hmore, accumulate_more clock hfits (hlist ▸ hmore), hlist,
        hpace.virtualClock]
      exact ih hpace
  | full t acc clock hfull =>
      rw [accumulate_full clock hfull, accumulate_full clock hfull]
      exact ⟨rfl, h⟩

/-- The accumulation takes its frames off what is left of the drain. -/
theorem accumulate_drains {evts : List ℕ} (hd : Drains t evts) (acc clock : ℕ) :
    let r := Rx.accumulate t acc clock
    if r.2.2.2 = true then r.2.1 = acc + evts.length
    else ∃ rest, Drains r.1 rest ∧ r.2.1 + rest.length = acc + evts.length := by
  induction t, acc, clock using accumulate_induction generalizing evts with
  | stop t acc clock hfits hzero =>
      rw [accumulate_stop clock hfits hzero]
      cases hd with
      | stop => rfl
      | more hpos =>
          rw [poll_released, released, List.length_map, hzero] at hpos
          exact absurd hpos (Nat.lt_irrefl 0)
  | more t acc clock hfits hmore ih =>
      rw [accumulate_more clock hfits hmore]
      cases hd with
      | stop hzero =>
          rw [poll_released, released, List.length_map] at hzero
          exact absurd hzero hmore
      | @more _ evts hpos hrest =>
          have hlen : (t.released ++ evts).length =
              (t.pollEvents none BATCH_CAPACITY).2.length + evts.length := by
            rw [List.length_append, released, List.length_map]
          obtain ⟨b, hb⟩ := t.poll_state
          have hpace : Pace t.poll.1 (t.pollEvents none BATCH_CAPACITY).1 := by
            rw [hb]
            exact ⟨⟨rfl, rfl, rfl, rfl, rfl, rfl⟩, rfl, rfl⟩
          have hnext := ih (hrest.pace hpace)
          rw [hlen, ← Nat.add_assoc]
          exact hnext
  | full t acc clock hfull =>
      rw [accumulate_full clock hfull]
      exact ⟨evts, hd, rfl⟩

/-! ## The walk of a pass -/

/-- An accumulation that is not the last of its pass moves on. -/
theorem accumulate_lt (hmore : (Rx.accumulate t 0 0).2.2.2 = false) :
    t.eventIdx < (Rx.accumulate t 0 0).1.eventIdx ∧ t.eventIdx < t.metas.length := by
  have hwalked := accumulate_walked t 0 0
  have hcount := hwalked.count
  have hfull := hwalked.full hmore
  rw [ENTRY_CAP, BATCH_CAPACITY] at hfull
  obtain ⟨⟨i, m⟩, hmem⟩ : ∃ e, e ∈ listed t.metas t.eventIdx (Rx.accumulate t 0 0).1.eventIdx := by
    apply List.exists_mem_of_length_pos
    omega
  obtain ⟨hle, hlt, hmeta, -⟩ := mem_listed hmem
  have hin := (List.getElem?_eq_some_iff.mp hmeta).1
  exact ⟨hle.trans_lt hlt, hle.trans_lt hin⟩

/-- The publications from a frame number on, without the marker. -/
@[grind =]
def walk (t : ReplayTransport) (idx : ℕ) : List PubMeta :=
  let r := Rx.accumulate t 0 0
  ⟨r.2.1, idx, r.2.2.1⟩ ::
    if r.2.2.2 = true then [] else walk r.1 (idx + r.2.1)
termination_by t.metas.length - t.eventIdx
decreasing_by
  rename_i hmore
  obtain ⟨hlt, hin⟩ := accumulate_lt (Bool.not_eq_true _ ▸ hmore)
  rw [(accumulate_walked t 0 0).static.metas]
  omega

/-- A pass with its marker. -/
def passRecords (t : ReplayTransport) : List PubMeta := walk t 0 ++ [.EMPTY]


/-- The first publication of a walk. -/
def firstPub (t : ReplayTransport) (idx : ℕ) : PubMeta :=
  ⟨(Rx.accumulate t 0 0).2.1, idx, (Rx.accumulate t 0 0).2.2.1⟩

theorem walk_last {idx : ℕ} (hlast : (Rx.accumulate t 0 0).2.2.2 = true) :
    walk t idx = [firstPub t idx] := by
  rw [walk]
  exact congrArg _ (if_pos hlast)

theorem walk_more {idx : ℕ} (hmore : (Rx.accumulate t 0 0).2.2.2 = false) :
    walk t idx = firstPub t idx ::
      walk (Rx.accumulate t 0 0).1 (idx + (Rx.accumulate t 0 0).2.1) := by
  rw [walk]
  exact congrArg _ (if_neg (by rw [hmore]; exact Bool.false_ne_true))

/-- Induction along the publications of a pass. -/
@[elab_as_elim] theorem walk_induction {P : ReplayTransport → ℕ → Prop}
    (last : ∀ t idx, (Rx.accumulate t 0 0).2.2.2 = true → P t idx)
    (more : ∀ t idx, (Rx.accumulate t 0 0).2.2.2 = false →
      P (Rx.accumulate t 0 0).1 (idx + (Rx.accumulate t 0 0).2.1) → P t idx)
    (t : ReplayTransport) (idx : ℕ) : P t idx := by
  induction t, idx using walk.induct with
  | case1 t idx r ih =>
      cases hend : (Rx.accumulate t 0 0).2.2.2 with
      | true => exact last t idx hend
      | false => exact more t idx hend (ih (by rw [hend]; exact Bool.false_ne_true))

/-- The walk does not depend on what the blob holds. -/
theorem walk_pace (h : Pace t t') (idx : ℕ) : walk t' idx = walk t idx := by
  induction t, idx using walk_induction generalizing t' with
  | last t idx hlast =>
      obtain ⟨hsame, -⟩ := accumulate_pace h 0 0
      rw [walk_last hlast, walk_last (hsame ▸ hlast), firstPub, firstPub, hsame]
  | more t idx hmore ih =>
      obtain ⟨hsame, hpace⟩ := accumulate_pace h 0 0
      rw [walk_more hmore, walk_more (hsame ▸ hmore), firstPub, firstPub, hsame, ih hpace]

/-- The publications follow each other from a frame number on. -/
@[grind =]
def Tiles : ℕ → List PubMeta → Prop
  | _, [] => True
  | idx, pub :: pubs => pub.rxStart = idx ∧ Tiles (idx + pub.len) pubs

theorem walk_tiles (t : ReplayTransport) (idx : ℕ) : Tiles idx (walk t idx) := by
  induction t, idx using walk_induction with
  | last t idx hlast =>
      rw [walk_last hlast]
      exact ⟨rfl, trivial⟩
  | more t idx hmore ih =>
      rw [walk_more hmore]
      exact ⟨rfl, ih⟩

/-- The slices of a table that follow each other make one slice. -/
theorem tiles_slices {α : Type*} (table : List α) {idx : ℕ} {pubs : List PubMeta}
    (h : Tiles idx pubs) :
    pubs.flatMap (fun pub => slice table pub.rxStart (pub.rxStart + pub.len)) =
      slice table idx (idx + (pubs.map PubMeta.len).sum) := by
  induction pubs generalizing idx with
  | nil => simp [slice]
  | cons pub pubs ih =>
      obtain ⟨rfl, hrest⟩ := h
      rw [List.flatMap_cons, ih hrest, List.map_cons, List.sum_cons, ← Nat.add_assoc]
      exact slice_split _ (Nat.le_add_right _ _) (Nat.le_add_right _ _)

/-- Every publication fits the entry array of a buffer, and none but the last leaves room for
another poll. -/
theorem walk_sized (t : ReplayTransport) (idx : ℕ) :
    (∀ pub ∈ walk t idx, pub.len ≤ ENTRY_CAP) ∧
      ∀ pub ∈ (walk t idx).dropLast, ENTRY_CAP < pub.len + BATCH_CAPACITY := by
  induction t, idx using walk_induction with
  | last t idx hlast =>
      rw [walk_last hlast]
      refine ⟨fun pub hpub => ?_, nofun⟩
      rw [List.mem_singleton.mp hpub]
      exact (accumulate_walked t 0 0).cap (Nat.zero_le _)
  | more t idx hmore ih =>
      have hwalked := accumulate_walked t 0 0
      have hne : walk (Rx.accumulate t 0 0).1 (idx + (Rx.accumulate t 0 0).2.1) ≠ [] := by
        rw [walk]
        exact List.cons_ne_nil _ _
      rw [walk_more hmore, List.dropLast_cons_of_ne_nil hne]
      constructor
      · intro pub hpub
        obtain rfl | hrest := List.mem_cons.mp hpub
        · exact hwalked.cap (Nat.zero_le _)
        · exact ih.1 pub hrest
      · intro pub hpub
        obtain rfl | hrest := List.mem_cons.mp hpub
        · exact hwalked.full hmore
        · exact ih.2 pub hrest

/-- The frames of the publications are those of the drain. -/
theorem walk_drains {evts : List ℕ} (hd : Drains t evts) (idx : ℕ) :
    ((walk t idx).map PubMeta.len).sum = evts.length := by
  induction t, idx using walk_induction generalizing evts with
  | last t idx hlast =>
      have hall := accumulate_drains hd 0 0
      rw [if_pos hlast, Nat.zero_add] at hall
      rw [walk_last hlast]
      exact hall
  | more t idx hmore ih =>
      have hall := accumulate_drains hd 0 0
      rw [if_neg (by rw [hmore]; exact Bool.false_ne_true), Nat.zero_add] at hall
      obtain ⟨rest, hrest, hsum⟩ := hall
      rw [walk_more hmore, List.map_cons, List.sum_cons, ih hrest]
      exact hsum

/-- The publications stay within the frames of the directory. -/
theorem walk_bounded (t : ReplayTransport) {idx : ℕ}
    (hidx : idx = (listed t.metas 0 t.eventIdx).length) :
    idx + ((walk t idx).map PubMeta.len).sum ≤ t.emittedMetas.length := by
  have hreach (t : ReplayTransport) :
      (listed t.metas 0 t.eventIdx).length + (Rx.accumulate t 0 0).2.1 =
        (listed t.metas 0 (Rx.accumulate t 0 0).1.eventIdx).length := by
    have hwalked := accumulate_walked t 0 0
    rw [hwalked.count, Nat.zero_add, ← List.length_append,
      listed_append t.metas (Nat.zero_le _) hwalked.le]
  rw [emittedMetas_length]
  induction t, idx using walk_induction with
  | last t idx hlast =>
      rw [walk_last hlast, hidx]
      exact (hreach t).trans_le (listed_length_le t.metas _)
  | more t idx hmore ih =>
      have hmetas := (accumulate_walked t 0 0).static.metas
      rw [hmetas] at ih
      have hrest := ih (hidx ▸ hreach t)
      rw [walk_more hmore, List.map_cons, List.sum_cons, ← Nat.add_assoc]
      exact hrest

end Pipeline

end HftProj.Transport
