import HftProj.Transport.Layout

/-!
# Fidelity of the rendered transport

Writing a session over patch sites never touches more than the first ten bytes of the
regions it is meant for, so after any sequence of resets every released frame reads what
rendering its event anew would give, and carries the exact block index and memo.
-/

namespace HftProj.Transport

open HftProj.Lib HftProj.Protocol HftProj.Protocol.Moldudp64 HftProj.Protocol.Packet
open HftProj.Arbitrator

variable {gt : List UInt8} {sched : ReplaySchedule}

/-! ## Sites -/

/-- The patch sites are the regions that carry the resettable session. -/
def Sited (sched : ReplaySchedule) (events : List SchedEvent) (metas : List FrameMeta)
    (sites : List ℕ) : Prop :=
  ∀ off, off ∈ sites ↔ ∃ i ev m, Lists events metas i ev m ∧
    sched.patchable ev.kind = true ∧ off = m.offset

theorem patchable_key {kind : SchedKind} {key : AliasKey} (h : kind.aliasKey = some key) :
    sched.patchable kind = sched.patchableMsg key.2.1 := by
  cases kind with
  | heartbeat nextSeq => cases h
  | endOfSession nextSeq => cases h
  | packet firstSeq firstMsg count =>
      simp only [SchedKind.aliasKey] at h
      split at h
      · cases h
        rfl
      · cases h

theorem Built.mem_aliasMap {pre : List SchedEvent} {b : Build} (h : Built gt sched pre b)
    {key : AliasKey} {v : AliasVal} :
    (key, v) ∈ b.aliasMap ↔ b.aliasMap.lookup key = some v := by
  constructor
  · intro hmem
    obtain ⟨l₁, l₂, hl⟩ := List.append_of_mem hmem
    have hkeys := h.keys
    rw [hl, List.map_append, List.map_cons] at hkeys
    have hnotin : ∀ e ∈ l₁, e.1 ≠ key := by
      intro e he hk
      exact (List.nodup_append.mp hkeys).2.2 e.1 (List.mem_map_of_mem he) key
        List.mem_cons_self hk
    exact List.lookup_eq_some_iff.mpr ⟨l₁, l₂, hl, fun e he => bne_iff_ne.mpr (hnotin e he).symm⟩
  · intro hl
    obtain ⟨l₁, l₂, hl, -⟩ := List.lookup_eq_some_iff.mp hl
    rw [hl]
    simp

theorem Build.mem_sites (b : Build) (sched : ReplaySchedule) (site : ℕ × ℕ) :
    site ∈ b.sites sched ↔ site ∈ b.patchEvts ∨ ∃ key v, (key, v) ∈ b.aliasMap ∧
      sched.patchableMsg key.2.1 = true ∧ site = (v.lastEvt, v.off) := by
  rw [Build.sites, List.mem_mergeSort, List.mem_append, List.mem_filterMap]
  apply or_congr Iff.rfl
  constructor
  · rintro ⟨⟨key, v⟩, hmem, hsite⟩
    split at hsite
    · rename_i hp
      exact ⟨key, v, hmem, hp, (Option.some.inj hsite).symm⟩
    · cases hsite
  · rintro ⟨key, v, hmem, hp, rfl⟩
    exact ⟨(key, v), hmem, if_pos hp⟩

theorem Built.sited {pre : List SchedEvent} {b : Build} (h : Built gt sched pre b) :
    Sited sched pre b.metas ((b.sites sched).map Prod.snd) := by
  intro off
  simp only [List.mem_map, b.mem_sites, h.mem_aliasMap]
  constructor
  · rintro ⟨site, hown | ⟨key, v, hv, hp, rfl⟩, rfl⟩
    · obtain ⟨i, ev, m, hi, -, hp, rfl⟩ := (h.own site).mp hown
      exact ⟨i, ev, m, hi, hp, rfl⟩
    · obtain ⟨i, ev, m, hi, hkey, hval⟩ := h.shared key v hv
      exact ⟨i, ev, m, hi, by rw [patchable_key hkey, hp], congrArg Prod.fst hval⟩
  · rintro ⟨i, ev, m, hi, hp, rfl⟩
    cases hkey : ev.kind.aliasKey with
    | none => exact ⟨_, .inl ((h.own _).mpr ⟨i, ev, m, hi, hkey, hp, rfl⟩), rfl⟩
    | some key =>
        obtain ⟨v, hv, hoff, -⟩ := h.known i ev m key hi hkey
        exact ⟨_, .inr ⟨key, v, hv, by rw [← patchable_key hkey, hp], rfl⟩, hoff⟩

/-! ## Writing sessions -/

section Writes

variable {frames : List UInt8} {triples : List Triple} {events : List SchedEvent}
  {metas : List FrameMeta} {sites : List ℕ}

/-- A site is the head of a region or stays clear of it, and a region that does not carry
the resettable session has none. -/
theorem site_apart (hdir : Directory gt sched frames triples events metas)
    (hapart : Apart events metas) (hsites : Sited sched events metas sites) {i : ℕ}
    {ev : SchedEvent} {m : FrameMeta} (hi : Lists events metas i ev m) {off : ℕ}
    (hoff : off ∈ sites) : off + 10 ≤ frames.length ∧
      ((off = m.offset ∧ sched.patchable ev.kind = true) ∨ m.offset + m.len ≤ off ∨
        off + 10 ≤ m.offset) := by
  obtain ⟨j, ev', m', hj, hp, rfl⟩ := (hsites off).mp hoff
  obtain ⟨body', -, hent⟩ := hdir.lists hj
  have hlen := hent.len
  have hbound := hent.bound
  simp only [HEADER_LEN] at hlen
  refine ⟨by omega, ?_⟩
  rcases hapart i j ev ev' m m' hi hj with rfl | ⟨hk, -, ho⟩ | hd
  · obtain rfl : ev = ev' := Option.some.inj (hi.event.symm.trans hj.event)
    obtain rfl : m = m' := Option.some.inj (hi.entry.symm.trans hj.entry)
    exact .inl ⟨rfl, hp⟩
  · exact .inl ⟨ho.symm, hk ▸ hp⟩
  · right
    omega

variable (hdir : Directory gt sched frames triples events metas) (hapart : Apart events metas)
  (hsites : Sited sched events metas sites) {part : List ℕ} (hpart : ∀ off ∈ part, off ∈ sites)
  {data : List UInt8} (hdata : data.length = 10)

include hdir hapart hsites hpart hdata

/-- What a region reads after a session was written at some of the sites. -/
theorem slice_patched {i : ℕ} {ev : SchedEvent} {m : FrameMeta} (hi : Lists events metas i ev m) :
    slice (writeAll data part frames) (m.offset + 10) (m.offset + m.len) =
        slice frames (m.offset + 10) (m.offset + m.len) ∧
      slice (writeAll data part frames) m.offset (m.offset + 10) =
        if m.offset ∈ part then data else slice frames m.offset (m.offset + 10) := by
  obtain ⟨body, -, hent⟩ := hdir.lists hi
  have hlen := hent.len
  simp only [HEADER_LEN] at hlen
  have hin : ∀ off ∈ part, off + data.length ≤ frames.length := by
    intro off hoff
    rw [hdata]
    exact (site_apart hdir hapart hsites hi (hpart off hoff)).1
  have hclear : ∀ off ∈ part, off = m.offset ∨ m.offset + m.len ≤ off ∨ off + 10 ≤ m.offset := by
    intro off hoff
    rcases (site_apart hdir hapart hsites hi (hpart off hoff)).2 with ⟨h, -⟩ | h
    · exact .inl h
    · exact .inr h
  constructor
  · apply slice_writeAll_disjoint hin
    intro off hoff
    rw [hdata]
    rcases hclear off hoff with rfl | h | h
    · right; omega
    · left; omega
    · right; omega
  · split
    · rename_i hmem
      rw [slice_writeAll_head hin (by omega) _ hmem, hdata]
      · simp [slice]
      · intro off hoff
        rw [hdata]
        rcases hclear off hoff with h | h | h
        · exact .inl h
        · exact .inr (.inl (by omega))
        · exact .inr (.inr h)
    · rename_i hmem
      apply slice_writeAll_disjoint hin
      intro off hoff
      rw [hdata]
      rcases hclear off hoff with rfl | h | h
      · exact absurd hoff hmem
      · left; omega
      · right; omega

/-- Writing a session at some of the sites keeps the directory right. -/
theorem Directory.patched :
    Directory gt sched (writeAll data part frames) triples events metas := by
  apply List.forall₂_iff_get.mpr
  refine ⟨hdir.length_eq, ?_⟩
  intro i hi hi'
  have hpair := hdir.get hi hi'
  simp only [List.get_eq_getElem] at hpair ⊢
  cases hbody : bodyOf gt events[i].kind with
  | none => simpa [hbody] using hpair
  | some body =>
      simp only [hbody] at hpair ⊢
      have hlists : Lists events metas i events[i] metas[i] :=
        ⟨List.getElem?_eq_getElem hi, List.getElem?_eq_getElem hi', by
          rw [hpair.len]
          simp [HEADER_LEN]⟩
      obtain ⟨hrest, hhead⟩ := slice_patched hdir hapart hsites hpart hdata hlists
      exact
        { hpair with
          bound := by
            rw [writeAll_length]
            · exact hpair.bound
            · intro off hoff
              rw [hdata]
              exact (site_apart hdir hapart hsites hlists (hpart off hoff)).1
          rest := hrest.trans hpair.rest
          fixed := by
            intro hp session
            rw [hhead, if_neg, hpair.fixed hp session]
            intro hmem
            obtain ⟨-, ⟨-, hp'⟩ | hclear⟩ := site_apart hdir hapart hsites hlists (hpart _ hmem)
            · rw [hp] at hp'
              cases hp'
            · have := hpair.len
              simp only [HEADER_LEN] at this
              omega }

end Writes

/-! ## The transport -/

namespace ReplayTransport

/-- The layout of the blob, kept by every operation. -/
structure Laid (gt : List UInt8) (sched : ReplaySchedule) (t : ReplayTransport) : Prop where
  schedule : t.schedule = sched
  times : t.vts = sched.events.map fun e => e.releaseVt.toNat
  groups : t.groupEnd = groupEnds t.vts.length 0 t.vts
  directory : Directory gt sched t.frames t.triples sched.events t.metas
  apart : Apart sched.events t.metas
  sited : Sited sched sched.events t.metas (t.patchEvts.map Prod.snd)

/-- Every region that carries the resettable session carries this one. -/
def Baked (t : ReplayTransport) (session : SessionId) : Prop :=
  ∀ i ev m, Lists t.schedule.events t.metas i ev m → t.schedule.patchable ev.kind = true →
    slice t.frames m.offset (m.offset + 10) = session.1

variable {t : ReplayTransport}

/-- Writing a session at some of the sites keeps the layout. -/
theorem Laid.patched (h : t.Laid gt sched) (session : SessionId) {part : List ℕ}
    (hpart : ∀ off ∈ part, off ∈ t.patchEvts.map Prod.snd) :
    { t with frames := writeAll session.1 part t.frames }.Laid gt sched :=
  { h with directory := h.directory.patched h.apart h.sited hpart session.2 }

theorem Laid.patchSessions (h : t.Laid gt sched) :
    t.patchSessions.Laid gt sched ∧ t.patchSessions.Baked t.session := by
  refine ⟨h.patched t.session fun _ hoff => hoff, ?_⟩
  intro i ev m hi hp
  obtain rfl := h.schedule
  have hhead := (slice_patched h.directory h.apart h.sited (fun _ hoff => hoff) t.session.2 hi).2
  rw [if_pos ((h.sited m.offset).mpr ⟨i, ev, m, hi, hp, rfl⟩)] at hhead
  exact hhead

theorem new_laid (hfit : OffsetsFit gt sched.events) (session : SessionId) :
    (new gt sched session).Laid gt sched ∧ (new gt sched session).Baked session := by
  have hstart : Built gt sched [] {} := built_start
  have hbuilt := hstart.renderAll session hfit rfl
  rw [List.length_nil] at hbuilt
  exact Laid.patchSessions
    { schedule := rfl
      times := hbuilt.times
      groups := rfl
      directory := hbuilt.directory
      apart := hbuilt.apart
      sited := hbuilt.sited }

/-! ## Operations -/

inductive Op where
  | reset (session : SessionId)
  | poll (maxVt : Option ℕ)
  | setPollCoalesce (k : ℕ)
  | setClockClamp (clamp : Option ℕ)
  deriving DecidableEq

def apply (t : ReplayTransport) : Op → ReplayTransport
  | .reset session => t.reset session
  | .poll maxVt => (t.pollClamped maxVt).1
  | .setPollCoalesce k => t.setPollCoalesce k
  | .setClockClamp clamp => t.setClockClamp clamp

def applyAll (t : ReplayTransport) (ops : List Op) : ReplayTransport := ops.foldl apply t

/-- The session of the last reset, if there was one. -/
def currentSession (session : SessionId) (ops : List Op) : SessionId :=
  ops.foldl (fun session op => match op with
    | .reset session => session
    | .poll _ | .setPollCoalesce _ | .setClockClamp _ => session) session

theorem pollEvents_frame (t : ReplayTransport) (maxVt : Option ℕ) (cap : ℕ) :
    ∃ eventIdx virtualClock, (t.pollEvents maxVt cap).1 =
      { t with eventIdx := eventIdx, virtualClock := virtualClock } := by
  unfold pollEvents
  split
  · exact ⟨t.eventIdx, t.virtualClock, rfl⟩
  · exact ⟨_, _, rfl⟩

/-- A poll moves the cursor, the clock and the map back to events, and nothing else. -/
theorem pollClamped_frame (t : ReplayTransport) (maxVt : Option ℕ) :
    ∃ eventIdx virtualClock batchEvent, (t.pollClamped maxVt).1 =
      { t with eventIdx := eventIdx, virtualClock := virtualClock, batchEvent := batchEvent } := by
  obtain ⟨eventIdx, virtualClock, heq⟩ := t.pollEvents_frame maxVt BATCH_CAPACITY
  simp only [pollClamped, heq]
  split
  · exact ⟨eventIdx, virtualClock, t.batchEvent, rfl⟩
  · split
    · exact ⟨eventIdx, virtualClock, _, rfl⟩
    · exact ⟨eventIdx, virtualClock, t.batchEvent, rfl⟩

/-- No operation touches the directory, the release times or the schedule. -/
theorem applyAll_static (t : ReplayTransport) (ops : List Op) :
    (t.applyAll ops).schedule = t.schedule ∧ (t.applyAll ops).metas = t.metas ∧
      (t.applyAll ops).vts = t.vts ∧ (t.applyAll ops).groupEnd = t.groupEnd := by
  induction ops generalizing t with
  | nil => exact ⟨rfl, rfl, rfl, rfl⟩
  | cons op ops ih =>
      have hone : (t.apply op).schedule = t.schedule ∧ (t.apply op).metas = t.metas ∧
          (t.apply op).vts = t.vts ∧ (t.apply op).groupEnd = t.groupEnd := by
        cases op with
        | poll maxVt =>
            obtain ⟨eventIdx, virtualClock, batchEvent, heq⟩ := t.pollClamped_frame maxVt
            rw [apply, heq]
            exact ⟨rfl, rfl, rfl, rfl⟩
        | reset session => exact ⟨rfl, rfl, rfl, rfl⟩
        | setPollCoalesce k => exact ⟨rfl, rfl, rfl, rfl⟩
        | setClockClamp clamp => exact ⟨rfl, rfl, rfl, rfl⟩
      obtain ⟨h₁, h₂, h₃, h₄⟩ := ih (t.apply op)
      exact ⟨h₁.trans hone.1, h₂.trans hone.2.1, h₃.trans hone.2.2.1, h₄.trans hone.2.2.2⟩

theorem apply_laid {session : SessionId} (h : t.Laid gt sched ∧ t.Baked session) (op : Op) :
    (t.apply op).Laid gt sched ∧ (t.apply op).Baked (currentSession session [op]) := by
  cases op with
  | reset session' =>
      have hcursors : (t.resetCursors session').Laid gt sched := { h.1 with }
      exact hcursors.patchSessions
  | poll maxVt =>
      obtain ⟨eventIdx, virtualClock, batchEvent, heq⟩ := t.pollClamped_frame maxVt
      rw [apply, heq]
      exact ⟨{ h.1 with }, h.2⟩
  | setPollCoalesce k => exact ⟨{ h.1 with }, h.2⟩
  | setClockClamp clamp => exact ⟨{ h.1 with }, h.2⟩

/-- Every sequence of operations keeps the layout and bakes the current session. -/
theorem applyAll_laid (ops : List Op) {session : SessionId}
    (h : t.Laid gt sched ∧ t.Baked session) :
    (t.applyAll ops).Laid gt sched ∧ (t.applyAll ops).Baked (currentSession session ops) := by
  induction ops generalizing t session with
  | nil => exact h
  | cons op ops ih => exact ih (apply_laid h op)

/-! ## Releasing -/

/-- The entries of the events from `a` up to `b`, tombstones left out. -/
def listed (metas : List FrameMeta) (a b : ℕ) : List (ℕ × FrameMeta) :=
  (List.range' a (b - a)).filterMap fun i =>
    if (metas.getD i {}).len = 0 then none else some (i, metas.getD i {})

theorem listed_self (metas : List FrameMeta) (a : ℕ) : listed metas a a = [] := by
  simp [listed]

theorem listed_succ (metas : List FrameMeta) {a b : ℕ} (h : a < b) :
    listed metas a b =
      (if (metas.getD a {}).len = 0 then [] else [(a, metas.getD a {})]) ++
        listed metas (a + 1) b := by
  rw [listed, show b - a = (b - (a + 1)) + 1 by omega, List.range'_succ, List.filterMap_cons]
  split
  · rename_i hz
    split at hz
    · rename_i hlen
      rw [if_pos hlen]
      rfl
    · cases hz
  · rename_i hs
    split at hs
    · cases hs
    · rename_i hlen
      cases hs
      rw [if_neg hlen]
      rfl

/-- The release loop emits every listed event up to where it stops. -/
theorem releaseLoop_eq (t : ReplayTransport) (exactPacing : Bool) (vclock limitEvt cap fuel evt : ℕ)
    (out : List (ℕ × FrameMeta)) :
    let r := t.releaseLoop exactPacing vclock limitEvt cap fuel evt out
    evt ≤ r.1 ∧ r.2 = out ++ listed t.metas evt r.1 := by
  induction fuel generalizing evt out with
  | zero => simp [releaseLoop, listed_self]
  | succ fuel ih =>
      simp only [releaseLoop]
      split
      · split
        · simp [listed_self]
        · split
          · rename_i hz
            obtain ⟨hle, hout⟩ := ih (evt + 1) out
            refine ⟨by omega, ?_⟩
            rw [hout, listed_succ t.metas (Nat.lt_of_succ_le hle), if_pos hz, List.nil_append]
          · rename_i hz
            obtain ⟨hle, hout⟩ := ih (evt + 1) (out ++ [(evt, t.metas.getD evt {})])
            refine ⟨by omega, ?_⟩
            rw [hout, listed_succ t.metas (Nat.lt_of_succ_le hle), if_neg hz, List.append_assoc]
      · simp [listed_self]

theorem mem_listed {metas : List FrameMeta} {a b i : ℕ} {m : FrameMeta}
    (h : (i, m) ∈ listed metas a b) : a ≤ i ∧ i < b ∧ metas[i]? = some m ∧ m.len ≠ 0 := by
  obtain ⟨j, hj, hm⟩ := List.mem_filterMap.mp h
  split at hm
  · cases hm
  · rename_i hlen
    cases hm
    have hrange := List.mem_range'_1.mp hj
    refine ⟨hrange.1, by omega, ?_, hlen⟩
    rw [List.getD_eq_getElem?_getD] at hlen ⊢
    cases hget : metas[i]? with
    | none => simp [hget] at hlen
    | some m => rfl

theorem listed_sorted (metas : List FrameMeta) (a b : ℕ) :
    ((listed metas a b).map Prod.fst).Pairwise (· < ·) := by
  rw [List.pairwise_map, listed]
  apply List.Pairwise.filterMap _ _ List.pairwise_lt_range'
  intro i j hij x hx y hy
  split at hx
  · cases hx
  · split at hy
    · cases hy
    · cases hx
      cases hy
      exact hij

/-- A poll emits the listed events from the cursor up to where it leaves it. -/
theorem pollEvents_eq (t : ReplayTransport) (maxVt : Option ℕ) (cap : ℕ) :
    t.eventIdx ≤ (t.pollEvents maxVt cap).1.eventIdx ∧
      (t.pollEvents maxVt cap).2 =
        listed t.metas t.eventIdx (t.pollEvents maxVt cap).1.eventIdx := by
  unfold pollEvents
  split
  · exact ⟨Nat.le_refl _, (listed_self _ _).symm⟩
  · simpa using releaseLoop_eq t _ _ _ cap _ t.eventIdx []

/-! ## What a released frame reads -/

/-- The entry is the frame that rendering the event anew gives, whatever the slot and the
cursor's history, with the exact walk of its blocks and the exact memo. -/
structure Faithful (gt : List UInt8) (sched : ReplaySchedule) (session : SessionId)
    (ev : SchedEvent) (e : FrameEntry) : Prop where
  bytes : ∀ history (slot : List UInt8), slot.length = ARENA_SLOT_SIZE →
    let r := renderEventStandalone gt ev sched session slot (cursorAfter gt sched history)
    r.len = some e.bytes.length ∧ r.slot.take e.bytes.length = e.bytes
  blocks : ∃ hdr, parseHeader e.bytes = .ok hdr ∧
    if hdr.count = EOS_COUNT then e.blocks = []
    else e.blocks = walkIndex e.bytes hdr.count HEADER_LEN hdr.seq ∧
      (splitBlocks hdr.count (e.bytes.drop HEADER_LEN)).2 = none
  memo : e.memo = if e.blocks = [] then none
    else some ⟨(validPrefix (cut e.bytes e.blocks)).length⟩

/-- Whatever was polled and reset before, the frames of a poll are those of an increasing
list of events, each what its event renders to with the current session. -/
def Fidelity (gt : List UInt8) (sched : ReplaySchedule) : Prop :=
  ∀ (session : SessionId) (ops : List Op) (maxVt : Option ℕ),
    let r := ((new gt sched session).applyAll ops).pollClamped maxVt
    ∃ evts : List ℕ, evts.Pairwise (· < ·) ∧
      List.Forall₂ (fun i e => ∃ ev, sched.events[i]? = some ev ∧
        Faithful gt sched (currentSession session ops) ev e) evts (r.1.batchEntries r.2)

/-- The renderer makes `frameOf` from any history. -/
theorem render_frameOf {ev : SchedEvent} {session : SessionId} {frame : List UInt8}
    (hframe : frameOf gt sched session ev.kind = some frame)
    (history : List (SchedEvent × SessionId × List UInt8)) {slot : List UInt8}
    (hslot : slot.length = ARENA_SLOT_SIZE) :
    let r := renderEventStandalone gt ev sched session slot (cursorAfter gt sched history)
    r.len = some frame.length ∧ r.slot.take frame.length = frame := by
  obtain ⟨hlen, -, hmap, hle⟩ := renderEventStandalone_spec sched ev session hslot
    (cursorAfter_synced history)
  simp only
  generalize renderEventStandalone gt ev sched session slot (cursorAfter gt sched history) = r
    at hlen hmap hle ⊢
  rw [hframe] at hmap
  obtain ⟨len, hr, htake⟩ := Option.map_eq_some_iff.mp hmap
  have : frame.length = len := by
    rw [← htake, List.length_take, hlen, Nat.min_eq_left (hle len hr)]
  rw [this]
  exact ⟨hr, htake⟩

/-- A packet that fits a slot is too small for the count of an end of session. -/
theorem wireCount_ne_eos {kind : SchedKind} {body : List UInt8} (hbody : bodyOf gt kind = some body)
    (hk : ∀ nextSeq, kind ≠ .endOfSession nextSeq) : kind.wireCount ≠ EOS_COUNT := by
  cases kind with
  | heartbeat nextSeq => exact Nat.ne_of_beq_eq_false rfl
  | endOfSession nextSeq => exact absurd rfl (hk nextSeq)
  | packet firstSeq firstMsg count =>
      have hroom := splitBlocks_room (bodyOf_packet hbody)
      have hlen := bodyOf_length hbody
      simp only [HEADER_LEN, ARENA_SLOT_SIZE, EOS_COUNT, SchedKind.wireCount, ne_eq] at hlen ⊢
      omega

theorem parseHeader_frame (session : SessionId) (kind : SchedKind) (body : List UInt8) :
    parseHeader (session.1 ++ kind.rest body) = .ok ⟨session, kind.seq, kind.wireCount⟩ := by
  have hseq : kind.seq < 2 ^ 64 := by
    cases kind <;> exact UInt64.toNat_lt _
  have hcount : kind.wireCount < 2 ^ 16 := by
    cases kind with
    | packet firstSeq firstMsg count => exact UInt16.toNat_lt _
    | heartbeat nextSeq => exact Nat.two_pow_pos 16
    | endOfSession nextSeq => exact (by decide : EOS_COUNT < 2 ^ 16)
  have := parseHeader_headerBytes session hseq hcount body
  simpa [headerBytes, SchedKind.rest, List.append_assoc] using this

/-- The index of a frame is its own length-prefix walk, with the session filled in. -/
theorem blocks_eq {kind : SchedKind} {body : List UInt8} (hbody : bodyOf gt kind = some body)
    (session : SessionId) :
    if kind.wireCount = EOS_COUNT then kind.blocks body = []
    else kind.blocks body = walkIndex (session.1 ++ kind.rest body) kind.wireCount HEADER_LEN
        kind.seq ∧ (splitBlocks kind.wireCount body).2 = none := by
  have hblank : (session.1 ++ kind.rest body).drop HEADER_LEN =
      (kind.blank body).drop HEADER_LEN :=
    (drop_frame session kind body).trans (drop_frame ⟨List.replicate 10 0, rfl⟩ kind body).symm
  cases hkind : kind with
  | endOfSession nextSeq =>
      rw [if_pos (show (SchedKind.endOfSession nextSeq).wireCount = EOS_COUNT from rfl)]
      rfl
  | heartbeat nextSeq =>
      rw [hkind] at hbody
      rw [if_neg (wireCount_ne_eos hbody nofun)]
      obtain rfl : [] = body := by
        have hsome := (Option.filter_eq_some_iff.mp hbody).1
        exact Option.some.inj hsome
      exact ⟨rfl, rfl⟩
  | packet firstSeq firstMsg count =>
      rw [hkind] at hbody
      rw [if_neg (wireCount_ne_eos hbody nofun)]
      refine ⟨?_, bodyOf_packet hbody⟩
      have hwalk := (walkIndex_congr hblank count.toNat (Nat.le_refl _) firstSeq.toNat).1
      rw [hkind] at hwalk
      exact hwalk.symm

/-- Every region starts with the session that its frame carries. -/
theorem Laid.header (h : t.Laid gt sched) {session : SessionId} (hbaked : t.Baked session) {i : ℕ}
    {ev : SchedEvent} {m : FrameMeta} (hi : Lists sched.events t.metas i ev m) :
    slice t.frames m.offset (m.offset + 10) = (sched.effectiveSession session ev.kind).1 := by
  obtain ⟨body, hbody, hent⟩ := h.directory.lists hi
  obtain rfl := h.schedule
  by_cases hp : t.schedule.patchable ev.kind = true
  · have := effectiveSession_eq t.schedule ev.kind session session
    rw [if_pos hp] at this
    rw [this]
    exact hbaked i ev m hi hp
  · exact hent.fixed (by simpa using hp) session

/-- A released entry is faithful, once its region carries the session. -/
theorem entry_faithful {t : ReplayTransport} (h : t.Laid gt sched) {session : SessionId}
    (hbaked : t.Baked session) {i : ℕ} {ev : SchedEvent} {m : FrameMeta}
    (hi : Lists sched.events t.metas i ev m) :
    Faithful gt sched session ev (t.entry (t.view m)) := by
  obtain ⟨body, hbody, hent⟩ := h.directory.lists hi
  obtain rfl := h.schedule
  have hlen := hent.len
  simp only [HEADER_LEN] at hlen
  have hhead := h.header hbaked hi
  have hbytes : (t.entry (t.view m)).bytes =
      (t.schedule.effectiveSession session ev.kind).1 ++ ev.kind.rest body := by
    change slice t.frames m.offset (m.offset + m.len) = _
    rw [← slice_split (m.offset + 10) (by omega) (by omega), hhead, hent.rest]
  have hblocks : (t.entry (t.view m)).blocks = ev.kind.blocks body ∧
      (t.entry (t.view m)).memo = if ev.kind.blocks body = [] then none else some ⟨m.valid⟩ := by
    change (t.frameBlocksMemo (t.view m)).1 = _ ∧ (t.frameBlocksMemo (t.view m)).2 = _
    have hcount := hent.blkCount
    unfold frameBlocksMemo
    by_cases hz : m.blkCount = 0
    · have hnil : ev.kind.blocks body = [] := List.length_eq_zero_iff.mp (hcount.symm.trans hz)
      rw [if_pos (show (t.view m).blkCount = 0 from hz), hnil]
      exact ⟨rfl, rfl⟩
    · have hne : ev.kind.blocks body ≠ [] := fun hnil => hz (by rw [hcount, hnil]; rfl)
      rw [if_neg (show ¬(t.view m).blkCount = 0 from hz), if_neg hne]
      exact ⟨hent.index, rfl⟩
  have heq := blocks_eq hbody (t.schedule.effectiveSession session ev.kind)
  constructor
  · intro history slot hslot
    rw [hbytes]
    exact render_frameOf (by rw [frameOf, hbody]; rfl) history hslot
  · refine ⟨_, by rw [hbytes]; exact parseHeader_frame _ _ _, ?_⟩
    rw [hblocks.1, hbytes, drop_frame]
    exact heq
  · rw [hblocks.2, hblocks.1]
    by_cases hnil : ev.kind.blocks body = []
    · rw [if_pos hnil, if_pos hnil]
    · rw [if_neg hnil, if_neg hnil, hent.valid, hbytes]
      have hblank : (ev.kind.blank body).drop HEADER_LEN =
          ((t.schedule.effectiveSession session ev.kind).1 ++ ev.kind.rest body).drop HEADER_LEN :=
        (drop_frame ⟨List.replicate 10 0, rfl⟩ ev.kind body).trans (drop_frame _ _ _).symm
      cases hkind : ev.kind with
      | heartbeat nextSeq => exact absurd (by rw [hkind]; rfl) hnil
      | endOfSession nextSeq => exact absurd (by rw [hkind]; rfl) hnil
      | packet firstSeq firstMsg count =>
          have hcut := (walkIndex_congr hblank count.toNat (Nat.le_refl _) firstSeq.toNat).2
          have hwalk := (walkIndex_congr hblank count.toNat (Nat.le_refl _) firstSeq.toNat).1
          rw [← hwalk, hkind] at hcut
          rw [SchedKind.blocks, hcut]

/-- A poll hands out the entries of the listed events it passes. -/
theorem pollClamped_batch (t : ReplayTransport) (maxVt : Option ℕ) :
    (t.pollClamped maxVt).1.batchEntries (t.pollClamped maxVt).2 =
      (listed t.metas t.eventIdx (t.pollEvents maxVt BATCH_CAPACITY).1.eventIdx).map fun e =>
        (t.pollClamped maxVt).1.entry (t.view e.2) := by
  obtain ⟨eventIdx, virtualClock, hevents⟩ := t.pollEvents_frame maxVt BATCH_CAPACITY
  have hbatch : (t.pollClamped maxVt).2 =
      (t.pollEvents maxVt BATCH_CAPACITY).2.map fun e => t.view e.2 := by
    change (if _ then _ else _ : ReplayTransport × List FrameView).2 = _
    rw [hevents]
    split
    · rfl
    · split <;> rfl
  rw [batchEntries, hbatch, List.map_map, (t.pollEvents_eq maxVt BATCH_CAPACITY).2]
  rfl

/-- As long as every region starts within the first 4 GiB of the blob, the transport serves
what its events render to. -/
theorem rendered_fidelity (hfit : OffsetsFit gt sched.events) : Fidelity gt sched := by
  intro session ops maxVt
  obtain ⟨hlaid, hbaked⟩ := applyAll_laid ops (new_laid hfit session)
  generalize (new gt sched session).applyAll ops = t at hlaid hbaked
  have hpolled := apply_laid ⟨hlaid, hbaked⟩ (.poll maxVt)
  obtain ⟨eventIdx, virtualClock, batchEvent, heq⟩ := t.pollClamped_frame maxVt
  refine ⟨(listed t.metas t.eventIdx (t.pollEvents maxVt BATCH_CAPACITY).1.eventIdx).map Prod.fst,
    listed_sorted _ _ _, ?_⟩
  rw [t.pollClamped_batch maxVt, List.forall₂_map_left_iff, List.forall₂_map_right_iff,
    List.forall₂_same]
  rintro ⟨i, m⟩ hmem
  obtain ⟨-, -, hm, hne⟩ := mem_listed hmem
  have hi : i < sched.events.length := by
    rw [hlaid.directory.length_eq]
    exact (List.getElem?_eq_some_iff.mp hm).1
  refine ⟨_, List.getElem?_eq_getElem hi, ?_⟩
  have := entry_faithful hlaid hbaked (i := i) ⟨List.getElem?_eq_getElem hi, hm, hne⟩
  rw [heq]
  exact this

/-- A message, a heartbeat and the same message again. -/
def resent : ReplaySchedule where
  events := [⟨1, 0, .packet 1 0 1⟩, ⟨1, 1, .heartbeat 2⟩, ⟨3, 1, .packet 1 0 1⟩]
  sessionSplit := none

theorem resent_fidelity : Fidelity [0, 1, 83] resent :=
  rendered_fidelity (.of_blobLen (by decide +kernel))

/-! ## A blob of more than 4 GiB -/

/-- One message that makes a frame fill its slot. -/
def wideMsg : List UInt8 := 5 :: 198 :: List.replicate 1478 0

def wideKind (i : ℕ) : SchedKind := .packet (UInt64.ofNat i) 0 1

@[irreducible] def wideCount : ℕ := 2863313

/-- The same message at more sequence numbers than 4 GiB have room for. -/
def wide : ReplaySchedule where
  events := (List.range wideCount).map fun i => ⟨0, 0, wideKind i⟩
  sessionSplit := none

theorem wideMsg_length : wideMsg.length = 1480 := by
  rw [wideMsg, List.length_cons, List.length_cons, List.length_replicate]

theorem wideMsg_payload : payload wideMsg 0 1 = some wideMsg := by
  have hlen := wideMsg_length
  have hstop : skipMsgs wideMsg 1 0 = some wideMsg.length := by
    rw [skipMsgs, if_neg (by omega), hlen]
    rfl
  rw [payload, msgOffset, skipMsgs, Option.bind_eq_bind, Option.bind_some, hstop, Option.bind_some,
    if_pos ⟨Nat.zero_le _, Nat.le_refl _⟩, slice, List.drop_zero, Nat.sub_zero, List.take_length]

theorem wide_body (i : ℕ) : bodyOf wideMsg (wideKind i) = some wideMsg := by
  have hfit : HEADER_LEN + wideMsg.length ≤ ARENA_SLOT_SIZE := by
    rw [wideMsg_length]
    decide
  calc
    bodyOf wideMsg (wideKind i) =
        (payload wideMsg 0 1).filter fun body => HEADER_LEN + body.length ≤ ARENA_SLOT_SIZE := rfl
    _ = some wideMsg := by
      rw [wideMsg_payload, Option.filter_some, if_pos (decide_eq_true hfit)]

/-- The construction after `n` of these events: regions of 1500 bytes, their offsets cut
down to 32 bits. -/
structure Widening (n : ℕ) (b : Build) : Prop where
  scratch : b.scratch.length = ARENA_SLOT_SIZE
  cursors : b.cursors.1.Synced wideMsg ∧ b.cursors.2.Synced wideMsg
  size : b.blob.length = 1500 * n
  own : b.patchEvts = []
  keys : ∀ e ∈ b.aliasMap, e.2.off < 2 ^ 32 ∧ ∃ i, i < n ∧ e.1 = (UInt64.ofNat i, 0, 1)
  registered : ∀ i, i < n → ∃ e ∈ b.aliasMap, e.2.lastEvt = asU32 i ∧ e.2.off = asU32 (1500 * i)
  entries : b.metas.length = n
  listed : ∀ i m, b.metas[i]? = some m → m.offset = asU32 (1500 * i) ∧ m.len = 1500

theorem Widening.render {n : ℕ} (hn : n < 2 ^ 64) {b : Build} (h : Widening n b)
    (session : SessionId) :
    Widening (n + 1) (b.render wideMsg wide session n ⟨0, 0, wideKind n⟩) := by
  have hbody : bodyOf wideMsg (wideKind n) = some wideMsg := wide_body n
  have hsize : HEADER_LEN + wideMsg.length = 1500 := congrArg (HEADER_LEN + ·) wideMsg_length
  have hkey : (wideKind n).aliasKey = some (UInt64.ofNat n, 0, 1) := rfl
  have hpatch : wide.patchable (wideKind n) = true := rfl
  have hmiss : b.aliasMap.lookup (UInt64.ofNat n, 0, 1) = none := by
    apply List.lookup_eq_none_iff.mpr
    intro e he
    obtain ⟨-, i, hi, hk⟩ := h.keys e he
    rw [hk, bne_iff_ne]
    intro heq
    have := congrArg UInt64.toNat (congrArg Prod.fst heq)
    simp only [UInt64.toNat_ofNat'] at this
    rw [Nat.mod_eq_of_lt hn, Nat.mod_eq_of_lt (by omega)] at this
    omega
  obtain ⟨hslot, hsync, hframe, hle⟩ := renderEventStandalone_spec wide
    ⟨0, 0, wideKind n⟩ session h.scratch h.cursors.1
  obtain ⟨hlen, htake⟩ := rendered_len hslot hframe hle hbody
  obtain ⟨base, hindex, -⟩ := indexBlocks_spec hbody htake b.triples
  have hcount := (blocks_length hkey wideMsg).1
  have hone : ((1 : UInt16).toNat : ℕ) = 1 := rfl
  simp only [hone] at hcount
  have hoff : asU32 b.blob.length ≤ b.blob.length := Nat.mod_le _ _
  unfold Build.render
  simp only [UInt8.toNat_zero, Nat.zero_mod, Nat.zero_ne_one, if_false]
  generalize renderEventStandalone wideMsg ⟨0, 0, wideKind n⟩ wide session b.scratch b.cursors.1
    = r at *
  have houtcome : Build.aliasOutcome { b with
      scratch := r.slot
      cursors := (r.cursor, b.cursors.2)
      vts := b.vts ++ [(0 : UInt64).toNat] } (wideKind n) (HEADER_LEN + wideMsg.length) =
        .primary := by
    simp only [Build.aliasOutcome, hkey, hmiss]
  rw [hlen]
  simp only [Build.place, houtcome, Build.append, hindex, hkey, hcount, hmiss, hone, and_self,
    if_true, Build.enter, Option.isSome_some, Nat.one_ne_zero, and_false, if_false, hpatch,
    Option.isNone_some, Bool.false_eq_true, or_self, List.append_nil]
  exact
    { scratch := hslot
      cursors := ⟨hsync, h.cursors.2⟩
      size := by
        have hroom : (b.blob ++ r.slot.take (HEADER_LEN + wideMsg.length)).length =
            1500 * (n + 1) := by
          rw [List.length_append, List.length_take, hslot, hsize, h.size]
          simp only [ARENA_SLOT_SIZE]
          omega
        have hin := h.size
        simp only
        rw [writeAt_length (by rw [List.length_replicate]; omega), hroom]
      own := h.own
      keys := by
        intro e he
        rcases List.mem_append.mp he with hold | hnew
        · obtain ⟨hlt, i, hi, hk⟩ := h.keys e hold
          exact ⟨hlt, i, by omega, hk⟩
        · obtain rfl := List.mem_singleton.mp hnew
          exact ⟨Nat.mod_lt _ (by decide), n, Nat.lt_succ_self n, rfl⟩
      registered := by
        intro i hi
        by_cases hin : i < n
        · obtain ⟨e, he, hoff⟩ := h.registered i hin
          exact ⟨e, List.mem_append_left _ he, hoff⟩
        · obtain rfl : i = n := by omega
          refine ⟨_, List.mem_append_right _ (List.mem_singleton_self _), rfl, ?_⟩
          rw [h.size]
      entries := by simp [h.entries]
      listed := by
        intro i m hm
        have hlen := h.entries
        by_cases hi : i < n
        · rw [List.getElem?_append_left (by omega)] at hm
          exact h.listed i m hm
        · rw [List.getElem?_append_right (by omega), List.getElem?_singleton] at hm
          split at hm
          · obtain rfl : i = n := by omega
            cases hm
            exact ⟨by rw [h.size], hsize⟩
          · cases hm }

theorem Widening.renderAll (session : SessionId) (count : ℕ) {n : ℕ} (hn : n + count ≤ 2 ^ 64)
    {b : Build} (h : Widening n b) :
    Widening (n + count) (Build.renderAll wideMsg wide session n
      ((List.range' n count).map fun i => ⟨0, 0, wideKind i⟩) b) := by
  induction count generalizing n b with
  | zero => exact h
  | succ count ih =>
      have := ih (n := n + 1) (by omega) (h.render (by omega) session)
      rw [show n + (count + 1) = n + 1 + count by omega]
      exact this

theorem applyAll_nil (t : ReplayTransport) : t.applyAll [] = t := rfl

theorem new_start (gt : List UInt8) (sched : ReplaySchedule) (session : SessionId) :
    (new gt sched session).eventIdx = 0 ∧ (new gt sched session).coalesce = 1 ∧
      (new gt sched session).clockClamp = none :=
  ⟨rfl, rfl, rfl⟩

theorem wide_built (session : SessionId) :
    Widening wideCount (Build.renderAll wideMsg wide session 0 wide.events {}) := by
  have hstart : Widening 0 {} :=
    { scratch := by simp
      cursors := ⟨Cursor.synced_start, Cursor.synced_start⟩
      size := rfl
      own := rfl
      keys := nofun
      registered := fun i hi => absurd hi (Nat.not_lt_zero i)
      entries := rfl
      listed := nofun }
  have hrun := hstart.renderAll session wideCount (by rw [wideCount]; norm_num)
  rw [Nat.zero_add, ← List.range_eq_range'] at hrun
  exact hrun

/-- A poll of the classic pacing moves past the event it starts at. -/
theorem pollEvents_progress {t : ReplayTransport} (h : t.eventIdx < t.metas.length)
    (hone : t.coalesce = 1) (hclamp : t.clockClamp = none) :
    t.eventIdx < (t.pollEvents none BATCH_CAPACITY).1.eventIdx := by
  unfold pollEvents
  rw [if_neg (by omega), hclamp, hone]
  simp only [beq_self_eq_true, if_true, Option.or_none, Option.map_none, Option.getD_none]
  generalize hv : max (max t.virtualClock (t.vts.getD t.eventIdx 0))
    (t.releaseChain none 1 t.eventIdx 0).2 = vclock
  have hclock : ¬vclock < t.vts.getD t.eventIdx 0 := by omega
  obtain ⟨fuel, hfuel⟩ : ∃ f, t.metas.length - t.eventIdx = f + 1 :=
    ⟨t.metas.length - t.eventIdx - 1, by omega⟩
  have hnext := fun out => (releaseLoop_eq t true vclock t.metas.length BATCH_CAPACITY fuel
    (t.eventIdx + 1) out).1
  rw [hfuel]
  simp only [releaseLoop, true_and]
  rw [if_pos ⟨h, by decide⟩, if_neg hclock]
  split
  · exact hnext _
  · exact hnext _

theorem new_parts (gt : List UInt8) (sched : ReplaySchedule) (session : SessionId) :
    (new gt sched session).metas = (Build.renderAll gt sched session 0 sched.events {}).metas ∧
      (new gt sched session).frames =
        writeAll session.1
          (((Build.renderAll gt sched session 0 sched.events {}).sites sched).map Prod.snd)
          (Build.renderAll gt sched session 0 sched.events {}).blob :=
  ⟨rfl, rfl⟩

/-- The region whose offset wrapped starts inside the region of the first event, and its
session is written there. -/
theorem wide_clobbered :
    (new wideMsg wide ⟨List.replicate 10 255, rfl⟩).frames[704]? = some 255 ∧
      ∃ m, (new wideMsg wide ⟨List.replicate 10 255, rfl⟩).metas[0]? = some m ∧
        m.offset = 0 ∧ m.len = 1500 := by
  have hcount : wideCount = 2863313 := by rw [wideCount]
  have hbuilt := wide_built ⟨List.replicate 10 255, rfl⟩
  obtain ⟨hmetas, hframes⟩ := new_parts wideMsg wide ⟨List.replicate 10 255, rfl⟩
  rw [hmetas, hframes]
  generalize Build.renderAll wideMsg wide ⟨List.replicate 10 255, rfl⟩ 0 wide.events {} = b
    at hbuilt ⊢
  have hsize := hbuilt.size
  rw [hcount] at hsize
  constructor
  · apply writeAll_covered
    · intro off hin
      obtain ⟨site, hsite, rfl⟩ := List.mem_map.mp hin
      rcases (b.mem_sites wide site).mp hsite with hown | ⟨key, v, hv, -, rfl⟩
      · rw [hbuilt.own] at hown
        cases hown
      · have hlt := (hbuilt.keys _ hv).1
        simp only at hlt ⊢
        omega
    · obtain ⟨e, he, -, hoff⟩ := hbuilt.registered 2863312 (by omega)
      have hwrap : asU32 (1500 * 2863312) = 704 := by norm_num [asU32]
      refine ⟨e.2.off, List.mem_map.mpr ⟨(e.2.lastEvt, e.2.off), ?_, rfl⟩, by omega, by omega⟩
      exact (b.mem_sites wide _).mpr (.inr ⟨e.1, e.2, he, rfl, rfl⟩)
  · have hlen : 0 < b.metas.length := by rw [hbuilt.entries]; omega
    have hm := List.getElem?_eq_getElem hlen
    exact ⟨_, hm, hbuilt.listed 0 _ hm⟩

theorem wide_byte (session : SessionId) (i : ℕ) :
    (session.1 ++ (wideKind i).rest wideMsg)[704]? = some 0 := by
  have hbody : wideMsg[684]? = some 0 := by
    rw [wideMsg, List.getElem?_cons_succ, List.getElem?_cons_succ, List.getElem?_replicate,
      if_pos (by decide)]
  rw [SchedKind.rest, List.getElem?_append_right (by rw [session.2]; omega), session.2,
    List.getElem?_append_right (by rw [toBeBytes_length]; omega), toBeBytes_length,
    List.getElem?_append_right (by rw [toBeBytes_length]; omega), toBeBytes_length]
  exact hbody

theorem wide_frame (session : SessionId) (i : ℕ) :
    ∃ id : SessionId,
      frameOf wideMsg wide session (wideKind i) = some (id.1 ++ (wideKind i).rest wideMsg) :=
  ⟨_, by rw [frameOf, wide_body, Option.map_some]⟩

/-- A faithful entry holds the frame of its event. -/
theorem Faithful.bytes_eq {ev : SchedEvent} {session : SessionId} {e : FrameEntry}
    (h : Faithful gt sched session ev e) {frame : List UInt8}
    (hframe : frameOf gt sched session ev.kind = some frame) : e.bytes = frame := by
  have hslot : (List.replicate ARENA_SLOT_SIZE (0 : UInt8)).length = ARENA_SLOT_SIZE := by simp
  obtain ⟨hlen, htake⟩ := h.bytes [] _ hslot
  obtain ⟨hlen', htake'⟩ := render_frameOf hframe [] hslot
  rw [← htake, ← htake', Option.some.inj (hlen.symm.trans hlen')]

/-- The first entry of a poll at the start of the classic pacing. -/
theorem pollClamped_first {t : ReplayTransport} {m : FrameMeta} (hm : t.metas[0]? = some m)
    (hlen : m.len ≠ 0) (hidx : t.eventIdx = 0) (hone : t.coalesce = 1)
    (hclamp : t.clockClamp = none) :
    ∃ rest, (t.pollClamped none).1.batchEntries (t.pollClamped none).2 =
      t.entry (t.view m) :: rest := by
  have hlt : 0 < t.metas.length := (List.getElem?_eq_some_iff.mp hm).1
  have hprogress := pollEvents_progress (t := t) (by omega) hone hclamp
  obtain ⟨eventIdx, virtualClock, batchEvent, heq⟩ := t.pollClamped_frame none
  have hget : t.metas.getD 0 {} = m := by
    rw [List.getD_eq_getElem?_getD, hm, Option.getD_some]
  rw [t.pollClamped_batch none, hidx, listed_succ t.metas (by omega), hget, if_neg hlen, heq]
  exact ⟨_, rfl⟩

theorem entry_byte (t : ReplayTransport) (m : FrameMeta) {p : ℕ} (hp : p < m.len) :
    (t.entry (t.view m)).bytes[p]? = t.frames[m.offset + p]? := by
  change (slice t.frames m.offset (m.offset + m.len))[p]? = _
  rw [slice_getElem?, if_pos (by omega)]

theorem wide_member {i : ℕ} {ev : SchedEvent} (h : wide.events[i]? = some ev) :
    ∃ j, ev.kind = wideKind j := by
  obtain ⟨j, -, rfl⟩ := List.mem_map.mp (List.mem_of_getElem? h)
  exact ⟨j, rfl⟩

/-- The first event is served with a session in the middle of its message. -/
theorem wide_unfaithful : ¬Fidelity wideMsg wide := by
  intro hfid
  obtain ⟨evts, -, hall⟩ := hfid ⟨List.replicate 10 255, rfl⟩ [] none
  obtain ⟨hbyte, m, hm, hoff, hlen⟩ := wide_clobbered
  obtain ⟨hidx, hone, hclamp⟩ := new_start wideMsg wide ⟨List.replicate 10 255, rfl⟩
  rw [applyAll_nil] at hall
  generalize new wideMsg wide ⟨List.replicate 10 255, rfl⟩ = t at *
  obtain ⟨rest, hbatch⟩ := pollClamped_first hm (by omega) hidx hone hclamp
  rw [hbatch] at hall
  cases hall with
  | cons hhead _ =>
      obtain ⟨ev, hev, hfaithful⟩ := hhead
      obtain ⟨i, hkind⟩ := wide_member hev
      obtain ⟨id, hframe⟩ := wide_frame (currentSession ⟨List.replicate 10 255, rfl⟩ []) i
      rw [← hkind] at hframe
      have hread := t.entry_byte m (p := 704) (by omega)
      rw [hfaithful.bytes_eq hframe, hkind, wide_byte, hoff, Nat.zero_add, hbyte] at hread
      cases hread

end ReplayTransport

end HftProj.Transport
