import HftProj.Arbitrator.Indexed
import HftProj.Transport.Render

/-!
# The layout of the blob

As long as no offset into the blob outgrows 32 bits, construction lays the regions out one
behind the other, each event's directory entry points at a region that holds its frame
apart from the resettable session, and two entries share a region or stay clear of each
other. The patch list covers exactly the regions that carry the resettable session.
-/

namespace HftProj.Transport

open HftProj.Lib HftProj.Protocol HftProj.Protocol.Moldudp64 HftProj.Protocol.Packet
open HftProj.Arbitrator

variable {gt : List UInt8} {sched : ReplaySchedule}

/-! ## The block walk -/

/-- The length-prefix walk over `n` blocks, its numbers wrapping. -/
@[grind =]
def walkIndex (frame : List UInt8) : ℕ → ℕ → ℕ → List Triple
  | 0, _, _ => []
  | n + 1, pos, seq =>
      let stop := pos + 2 + fromBeBytes (slice frame pos (pos + 2))
      (seq, pos + 2, stop) :: walkIndex frame n stop (wrappingAdd seq 1)

@[simp] theorem walkIndex_length (frame : List UInt8) (n pos seq : ℕ) :
    (walkIndex frame n pos seq).length = n := by
  induction n generalizing pos seq with
  | zero => rfl
  | succ n ih => simp [walkIndex, ih]

/-- Where the numbers do not wrap this is the walk of the indexed ingest. -/
theorem walkIndex_eq {frame : List UInt8} {n pos seq : ℕ} (h : seq + n ≤ 2 ^ 64) :
    walkIndex frame n pos seq = walkTriples frame n pos seq := by
  induction n generalizing pos seq with
  | zero => rfl
  | succ n ih =>
      cases n with
      | zero => rfl
      | succ n =>
          rw [walkIndex, walkTriples, wrappingAdd_of_lt (by omega), ih (by omega)]

theorem slice_eq_of_drop {a b : List UInt8} {pos start : ℕ} (h : a.drop pos = b.drop pos)
    (hs : pos ≤ start) (stop : ℕ) : slice a start stop = slice b start stop := by
  rw [slice, slice, ← Nat.add_sub_cancel' hs, ← List.drop_drop, ← List.drop_drop, h]

/-- The walk reads nothing in front of its position. -/
theorem walkIndex_congr {a b : List UInt8} {pos : ℕ} (h : a.drop pos = b.drop pos) (n : ℕ)
    {start : ℕ} (hs : pos ≤ start) (seq : ℕ) :
    walkIndex a n start seq = walkIndex b n start seq ∧
      cut a (walkIndex a n start seq) = cut b (walkIndex b n start seq) := by
  induction n generalizing start seq with
  | zero => exact ⟨rfl, rfl⟩
  | succ n ih =>
      have hlen := slice_eq_of_drop h hs (start + 2)
      have hnext : pos ≤ start + 2 + fromBeBytes (slice b start (start + 2)) := by omega
      obtain ⟨hw, hc⟩ := ih hnext (wrappingAdd seq 1)
      simp only [cut] at hc
      have hcut := slice_eq_of_drop h (Nat.le_add_right_of_le hs : pos ≤ start + 2)
        (start + 2 + fromBeBytes (slice b start (start + 2)))
      constructor
      · rw [walkIndex, walkIndex, hlen, hw]
      · simp only [cut, walkIndex, hlen, List.map_cons, hcut, hc]

theorem validPrefix_cons (b : ℕ × List UInt8) (bs : List (ℕ × List UInt8)) :
    (validPrefix (b :: bs)).length =
      if (Itch5.validate b.2).isOk then (validPrefix bs).length + 1 else 0 := by
  rw [validPrefix]
  cases Itch5.validate b.2 <;> rfl

/-- Over a frame whose blocks fill it the block walk appends the exact index and counts the
exact prefix of blocks that validate. -/
theorem chainLoop_spec {scratch frame : List UInt8} (hframe : scratch.take frame.length = frame)
    (n : ℕ) {c : Chain} (harea : (splitBlocks n (frame.drop c.pos)).2 = none)
    (hpos : c.pos ≤ frame.length) (hvalid : c.valid ≤ c.n) :
    let r := chainLoop scratch frame.length n c
    r.triples = c.triples ++ walkIndex frame n c.pos c.seq ∧ r.pos = frame.length ∧
      r.n = c.n + n ∧ r.ok = c.ok ∧
      r.valid = if c.valid = c.n then
        c.n + (validPrefix (cut frame (walkIndex frame n c.pos c.seq))).length else c.valid := by
  have hread : ∀ start stop, stop ≤ frame.length →
      slice scratch start stop = slice frame start stop := by
    intro start stop hstop
    have := List.take_append_drop frame.length scratch
    rw [hframe] at this
    rw [← this, slice_append_left hstop]
  have hscratch : frame.length ≤ scratch.length := by
    have := congrArg List.length hframe
    rw [List.length_take] at this
    omega
  induction n generalizing c with
  | zero =>
      have hend : c.pos = frame.length := by
        by_contra hne
        have : frame.drop c.pos ≠ [] := by
          rw [Ne, List.drop_eq_nil_iff]
          omega
        simp [splitBlocks, this] at harea
      simp only [chainLoop, walkIndex, cut, List.append_nil, List.map_nil, validPrefix,
        List.length_nil, Nat.add_zero, hend, true_and]
      split
      · assumption
      · rfl
  | succ n ih =>
      obtain ⟨hstop, hsplit⟩ := splitBlocks_succ harea
      rw [hsplit] at harea
      have h2 : c.pos + 2 ≤ frame.length := by omega
      rw [chainLoop, if_neg (by omega), hread _ _ h2, if_neg (by omega), hread _ _ hstop]
      obtain ⟨htriples, hend, hn, hok, hval⟩ := ih (c := ⟨c.triples ++ [(c.seq, c.pos + 2,
          c.pos + 2 + fromBeBytes (slice frame c.pos (c.pos + 2)))],
        c.pos + 2 + fromBeBytes (slice frame c.pos (c.pos + 2)), wrappingAdd c.seq 1, c.n + 1,
        if c.valid = c.n ∧ (Itch5.validate (slice frame (c.pos + 2)
          (c.pos + 2 + fromBeBytes (slice frame c.pos (c.pos + 2))))).isOk = true then c.valid + 1
        else c.valid, c.ok⟩) harea hstop (by simp only; split <;> omega)
      refine ⟨?_, hend, by rw [hn]; simp only; omega, hok, ?_⟩
      · rw [htriples, walkIndex, List.append_assoc, List.singleton_append]
      · rw [hval]
        simp only [walkIndex, cut, List.map_cons, validPrefix_cons]
        by_cases hv : c.valid = c.n
        · by_cases hpass : (Itch5.validate (slice frame (c.pos + 2)
              (c.pos + 2 + fromBeBytes (slice frame c.pos (c.pos + 2))))).isOk = true
          · simp only [hv, hpass, and_self, if_true]
            omega
          · simp [hv, hpass]
        · simp only [hv, false_and, if_false]
          rw [if_neg (by omega)]

/-! ## Frames -/

/-- The messages a packet carries split without error. -/
theorem splitBlocks_skipped {n pos stop : ℕ} (h : skipMsgs gt n pos = some stop)
    (hstop : stop ≤ gt.length) : (splitBlocks n (slice gt pos stop)).2 = none := by
  induction n generalizing pos with
  | zero =>
      cases h
      simp [slice, splitBlocks]
  | succ n ih =>
      rw [skipMsgs] at h
      split at h
      · cases h
      · have hle := skipMsgs_le h
        have hlen := prefixedLen_pos gt pos
        have htake : (slice gt pos stop).take 2 = slice gt pos (pos + 2) :=
          take_slice (by omega)
        have hsize : (slice gt pos stop).length = stop - pos := slice_length hstop
        have hdrop : (slice gt pos stop).drop (prefixedLen gt pos) =
            slice gt (pos + prefixedLen gt pos) stop := drop_slice _ _ _ _
        rw [splitBlocks, if_neg (by omega)]
        simp only [htake]
        rw [← prefixedLen, if_neg (by omega), hdrop]
        exact ih h

/-- The blocks of an area take at least two bytes each. -/
theorem splitBlocks_room {n : ℕ} {area : List UInt8} (h : (splitBlocks n area).2 = none) :
    2 * n ≤ area.length := by
  induction n generalizing area with
  | zero => omega
  | succ n ih =>
      rw [splitBlocks] at h
      split at h
      · cases h
      · simp only at h
        split at h
        · cases h
        · have := ih h
          rw [List.length_drop] at this
          omega

theorem bodyOf_packet {firstSeq firstMsg : UInt64} {count : UInt16} {body : List UInt8}
    (h : bodyOf gt (.packet firstSeq firstMsg count) = some body) :
    (splitBlocks count.toNat body).2 = none := by
  obtain ⟨h, -⟩ := Option.filter_eq_some_iff.mp h
  simp only [SchedKind.body, payload, Option.bind_eq_bind, Option.bind_eq_some_iff] at h
  obtain ⟨start, -, stop, hskip, hin⟩ := h
  split at hin
  · cases hin
    rename_i hle
    exact splitBlocks_skipped hskip hle.2
  · cases hin

theorem bodyOf_length {kind : SchedKind} {body : List UInt8} (h : bodyOf gt kind = some body) :
    HEADER_LEN + body.length ≤ ARENA_SLOT_SIZE := by
  obtain ⟨-, h⟩ := Option.filter_eq_some_iff.mp h
  simpa using h

@[simp] theorem SchedKind.rest_length (kind : SchedKind) (body : List UInt8) :
    (kind.rest body).length = 10 + body.length := by
  simp [SchedKind.rest]
  omega

/-- Two packets with one key carry the same messages. -/
theorem bodyOf_alias {k k' : SchedKind} (hkey : k.aliasKey = k'.aliasKey)
    (hsome : k.aliasKey ≠ none) : k = k' := by
  cases k <;> cases k' <;> simp_all [SchedKind.aliasKey]
  · split at hkey <;> simp_all

/-- A frame that carries the resettable session starts with it; the start of any other does
not depend on it. -/
theorem effectiveSession_eq (sched : ReplaySchedule) (kind : SchedKind) (s s' : SessionId) :
    if sched.patchable kind then sched.effectiveSession s kind = s
    else sched.effectiveSession s kind = sched.effectiveSession s' kind := by
  unfold ReplaySchedule.patchable ReplaySchedule.effectiveSession ReplaySchedule.patchableMsg
  cases sched.sessionSplit with
  | none => cases kind <;> rfl
  | some split =>
      cases kind with
      | packet _ firstMsg _ =>
          by_cases h : firstMsg < split.1
          · simp [h, UInt64.not_le.mpr h]
          · simp [h, UInt64.not_lt.mp h]
      | heartbeat _ => rfl
      | endOfSession _ => rfl

/-- A frame with its session left open. -/
def SchedKind.blank (kind : SchedKind) (body : List UInt8) : List UInt8 :=
  List.replicate 10 0 ++ kind.rest body

/-- The block index of a frame. -/
def SchedKind.blocks (kind : SchedKind) (body : List UInt8) : List Triple :=
  match kind with
  | .packet firstSeq _ count =>
      walkIndex (kind.blank body) count.toNat HEADER_LEN firstSeq.toNat
  | .heartbeat _ | .endOfSession _ => []

theorem drop_frame (session : SessionId) (kind : SchedKind) (body : List UInt8) :
    (session.1 ++ kind.rest body).drop HEADER_LEN = body := by
  have := session.2
  rw [SchedKind.rest, ← List.append_assoc, ← List.append_assoc, List.drop_append_of_le_length,
    List.drop_of_length_le, List.nil_append]
  · simp [this, HEADER_LEN]
  · simp [this, HEADER_LEN]

/-! ## Sizes -/

/-- The messages of the event were already rendered for an earlier one. -/
def repeated (before : List SchedEvent) (kind : SchedKind) : Prop :=
  kind.aliasKey ≠ none ∧ ∃ e ∈ before, e.kind = kind

instance (before : List SchedEvent) (kind : SchedKind) : Decidable (repeated before kind) :=
  inferInstanceAs (Decidable (_ ∧ _))

/-- The bytes that an event adds to the blob. -/
def regionLen (gt : List UInt8) (before : List SchedEvent) (kind : SchedKind) : ℕ :=
  if repeated before kind then 0
  else ((bodyOf gt kind).map fun body => HEADER_LEN + body.length).getD 0

/-- The bytes that a list of events, the latest first, adds to the blob. -/
@[grind =]
def blobLenRev (gt : List UInt8) : List SchedEvent → ℕ
  | [] => 0
  | ev :: before => blobLenRev gt before + regionLen gt before ev.kind

def blobLen (gt : List UInt8) (events : List SchedEvent) : ℕ := blobLenRev gt events.reverse

/-- Every region starts within the first 4 GiB of the blob. -/
def OffsetsFit (gt : List UInt8) (events : List SchedEvent) : Prop :=
  ∀ before ev after, events = before ++ ev :: after → regionLen gt before ev.kind ≠ 0 →
    blobLen gt before < 2 ^ 32

theorem blobLen_snoc (before : List SchedEvent) (ev : SchedEvent) :
    blobLen gt (before ++ [ev]) = blobLen gt before + regionLen gt before ev.kind := by
  have hrep : repeated before.reverse ev.kind ↔ repeated before ev.kind := by
    simp [repeated]
  rw [blobLen, List.reverse_append, List.reverse_singleton, List.singleton_append, blobLenRev,
    blobLen, regionLen, regionLen]
  simp only [hrep]

theorem blobLen_le (before after : List SchedEvent) :
    blobLen gt before ≤ blobLen gt (before ++ after) := by
  induction after using List.reverseRecOn with
  | nil => rw [List.append_nil]
  | append_singleton after ev ih =>
      rw [← List.append_assoc, blobLen_snoc]
      omega

theorem OffsetsFit.of_blobLen {events : List SchedEvent} (h : blobLen gt events < 2 ^ 32) :
    OffsetsFit gt events := by
  rintro before ev after rfl -
  exact Nat.lt_of_le_of_lt (blobLen_le before (ev :: after)) h

/-! ## The directory -/

/-- What the directory entry of an event with this body promises. -/
structure Entered (sched : ReplaySchedule) (frames : List UInt8) (triples : List Triple)
    (ev : SchedEvent) (body : List UInt8) (m : FrameMeta) : Prop where
  len : m.len = HEADER_LEN + body.length
  bound : m.offset + m.len ≤ frames.length
  feed : m.feed = ev.feed
  firstSeq : m.firstSeq = ev.kind.metaFirstSeq
  rest : slice frames (m.offset + 10) (m.offset + m.len) = ev.kind.rest body
  fixed : sched.patchable ev.kind = false → ∀ session,
    slice frames m.offset (m.offset + 10) = (sched.effectiveSession session ev.kind).1
  blkCount : m.blkCount = (ev.kind.blocks body).length
  index : slice triples m.blkBase (m.blkBase + m.blkCount) = ev.kind.blocks body
  valid : m.valid =
    (validPrefix (cut (ev.kind.blank body) (ev.kind.blocks body))).length

theorem Entered.mono {frames more : List UInt8} {triples further : List Triple}
    {ev : SchedEvent} {body : List UInt8} {m : FrameMeta}
    (h : Entered sched frames triples ev body m) :
    Entered sched (frames ++ more) (triples ++ further) ev body m where
  len := h.len
  bound := by
    have := h.bound
    rw [List.length_append]
    omega
  feed := h.feed
  firstSeq := h.firstSeq
  rest := by rw [slice_append_left h.bound, h.rest]
  fixed := by
    intro hp session
    have h₁ := h.bound
    have h₂ := h.len
    rw [slice_append_left (by simp only [HEADER_LEN] at h₂; omega), h.fixed hp session]
  blkCount := h.blkCount
  index := by
    have hlen := congrArg List.length h.index
    rw [← h.blkCount] at hlen
    rcases Nat.eq_zero_or_pos m.blkCount with hz | hpos
    · rw [← h.index, hz]
      simp [slice]
    · rw [slice_append_left, h.index]
      rw [slice, List.length_take, List.length_drop] at hlen
      omega
  valid := h.valid

/-- Event `i` was rendered and has entry `m`. -/
structure Lists (events : List SchedEvent) (metas : List FrameMeta) (i : ℕ) (ev : SchedEvent)
    (m : FrameMeta) : Prop where
  event : events[i]? = some ev
  entry : metas[i]? = some m
  len : m.len ≠ 0

theorem Lists.snoc {events : List SchedEvent} {metas : List FrameMeta} {i : ℕ}
    {ev e : SchedEvent} {m d : FrameMeta} (hlen : metas.length = events.length) :
    Lists (events ++ [e]) (metas ++ [d]) i ev m ↔
      Lists events metas i ev m ∨ (i = events.length ∧ ev = e ∧ m = d ∧ d.len ≠ 0) := by
  constructor
  · rintro ⟨h₁, h₂, h₃⟩
    rcases Nat.lt_trichotomy i events.length with hi | rfl | hi
    · rw [List.getElem?_append_left hi] at h₁
      rw [List.getElem?_append_left (by omega)] at h₂
      exact .inl ⟨h₁, h₂, h₃⟩
    · rw [List.getElem?_concat_length] at h₁
      rw [← hlen, List.getElem?_concat_length] at h₂
      cases h₁
      cases h₂
      exact .inr ⟨rfl, rfl, rfl, h₃⟩
    · rw [List.getElem?_eq_none (by simp; omega)] at h₁
      cases h₁
  · rintro (⟨h₁, h₂, h₃⟩ | ⟨rfl, rfl, rfl, h₃⟩)
    · have hi := (List.getElem?_eq_some_iff.mp h₁).1
      exact ⟨by rw [List.getElem?_append_left hi, h₁],
        by rw [List.getElem?_append_left (by omega), h₂], h₃⟩
    · exact ⟨List.getElem?_concat_length, by rw [← hlen, List.getElem?_concat_length], h₃⟩

/-- The directory is right about every event: it promises what the rendered ones need, and
has tombstones for the others. -/
def Directory (gt : List UInt8) (sched : ReplaySchedule) (frames : List UInt8)
    (triples : List Triple) (events : List SchedEvent) (metas : List FrameMeta) : Prop :=
  List.Forall₂ (fun ev m =>
    match bodyOf gt ev.kind with
    | none => m = { feed := ev.feed }
    | some body => Entered sched frames triples ev body m) events metas

theorem Directory.mono {frames more : List UInt8} {triples further : List Triple}
    {events : List SchedEvent} {metas : List FrameMeta}
    (h : Directory gt sched frames triples events metas) :
    Directory gt sched (frames ++ more) (triples ++ further) events metas := by
  apply List.Forall₂.imp _ h
  intro ev m hm
  cases hbody : bodyOf gt ev.kind with
  | none => simpa [hbody] using hm
  | some body =>
      simp only [hbody] at hm ⊢
      exact hm.mono

theorem Directory.lists {frames : List UInt8} {triples : List Triple} {events : List SchedEvent}
    {metas : List FrameMeta} (h : Directory gt sched frames triples events metas) {i : ℕ}
    {ev : SchedEvent} {m : FrameMeta} (hi : Lists events metas i ev m) :
    ∃ body, bodyOf gt ev.kind = some body ∧ Entered sched frames triples ev body m := by
  have hev := List.getElem?_eq_some_iff.mp hi.event
  have hm := List.getElem?_eq_some_iff.mp hi.entry
  have hpair := h.get hev.1 hm.1
  simp only [List.get_eq_getElem, hev.2, hm.2] at hpair
  cases hbody : bodyOf gt ev.kind with
  | none =>
      simp only [hbody] at hpair
      exact absurd (congrArg FrameMeta.len hpair) hi.len
  | some body =>
      simp only [hbody] at hpair
      exact ⟨body, rfl, hpair⟩

/-- Two entries are the same, share a region because they carry the same messages, or stay
clear of each other. -/
def Apart (events : List SchedEvent) (metas : List FrameMeta) : Prop :=
  ∀ i j ev ev' m m', Lists events metas i ev m → Lists events metas j ev' m' →
    i = j ∨ (ev.kind = ev'.kind ∧ ev.kind.aliasKey ≠ none ∧ m.offset = m'.offset) ∨
      m.offset + m.len ≤ m'.offset ∨ m'.offset + m'.len ≤ m.offset

/-- What holds of the construction after the events `pre`. -/
structure Built (gt : List UInt8) (sched : ReplaySchedule) (pre : List SchedEvent) (b : Build) :
    Prop where
  size : b.blob.length = blobLen gt pre
  times : b.vts = pre.map fun e => e.releaseVt.toNat
  scratch : b.scratch.length = ARENA_SLOT_SIZE
  cursors : b.cursors.1.Synced gt ∧ b.cursors.2.Synced gt
  triples : 2 * b.triples.length ≤ b.blob.length
  directory : Directory gt sched b.blob b.triples pre b.metas
  apart : Apart pre b.metas
  keys : (b.aliasMap.map Prod.fst).Nodup
  shared : ∀ key v, b.aliasMap.lookup key = some v → ∃ i ev m, Lists pre b.metas i ev m ∧
    ev.kind.aliasKey = some key ∧
      (v.off, v.blkBase, v.blkCount, v.valid) = (m.offset, m.blkBase, m.blkCount, m.valid)
  known : ∀ i ev m key, Lists pre b.metas i ev m → ev.kind.aliasKey = some key →
    ∃ v, b.aliasMap.lookup key = some v ∧ v.off = m.offset ∧ asU32 i ≤ v.lastEvt
  own : ∀ site, site ∈ b.patchEvts ↔ ∃ i ev m, Lists pre b.metas i ev m ∧
    ev.kind.aliasKey = none ∧ sched.patchable ev.kind = true ∧ site = (asU32 i, m.offset)

theorem built_start : Built gt sched [] {} where
  size := rfl
  times := rfl
  scratch := by simp
  cursors := ⟨Cursor.synced_start, Cursor.synced_start⟩
  triples := by simp
  directory := .nil
  apart := by
    intro i j ev ev' m m' hi
    have := hi.event
    simp at this
  keys := List.nodup_nil
  shared := nofun
  known := by
    intro i ev m key hi
    have := hi.event
    simp at this
  own := by
    intro site
    constructor
    · nofun
    · rintro ⟨i, ev, m, hi, -⟩
      have := hi.event
      simp at this

/-! ## One event -/

theorem Apart.snoc {pre : List SchedEvent} {metas : List FrameMeta} (h : Apart pre metas)
    (hlen : metas.length = pre.length) {ev : SchedEvent} {m : FrameMeta}
    (hnew : ∀ i ev' m', Lists pre metas i ev' m' →
      (ev'.kind = ev.kind ∧ ev.kind.aliasKey ≠ none ∧ m'.offset = m.offset) ∨
        m'.offset + m'.len ≤ m.offset ∨ m.offset + m.len ≤ m'.offset) :
    Apart (pre ++ [ev]) (metas ++ [m]) := by
  intro i j e e' d d' hi hj
  rcases (Lists.snoc hlen).mp hi with hold | ⟨rfl, rfl, rfl, -⟩
  · rcases (Lists.snoc hlen).mp hj with hold' | ⟨rfl, rfl, rfl, -⟩
    · exact h i j e e' d d' hold hold'
    · rcases hnew i e d hold with ⟨hk, hkey, ho⟩ | hd
      · exact .inr (.inl ⟨hk, hk ▸ hkey, ho⟩)
      · exact .inr (.inr hd)
  · rcases (Lists.snoc hlen).mp hj with hold' | ⟨rfl, rfl, rfl, -⟩
    · rcases hnew j e' d' hold' with ⟨hk, hkey, ho⟩ | hd
      · exact .inr (.inl ⟨hk.symm, hkey, ho.symm⟩)
      · exact .inr (.inr hd.symm)
    · exact .inl rfl

theorem gate_lookup (aliasMap : List (AliasKey × AliasVal)) (key : AliasKey) (evI : ℕ)
    (k : AliasKey) :
    (gate aliasMap key evI).lookup k = (aliasMap.lookup k).map fun v =>
      if k = key then { v with lastEvt := max v.lastEvt evI } else v := by
  induction aliasMap with
  | nil => rfl
  | cons e rest ih =>
      obtain ⟨k', v⟩ := e
      simp only [gate, List.map_cons] at ih ⊢
      have hhead : (if k' = key then (k', { v with lastEvt := max v.lastEvt evI }) else (k', v)) =
          (k', if k' = key then { v with lastEvt := max v.lastEvt evI } else v) := by
        split <;> rfl
      rw [hhead, List.lookup_cons, List.lookup_cons, ih]
      by_cases hk : k = k'
      · simp [hk]
      · have : (k == k') = false := by simpa using hk
        simp [this]

theorem gate_keys (aliasMap : List (AliasKey × AliasVal)) (key : AliasKey) (evI : ℕ) :
    (gate aliasMap key evI).map Prod.fst = aliasMap.map Prod.fst := by
  rw [gate, List.map_map]
  apply List.map_congr_left
  intro e _
  simp only [Function.comp_apply]
  split <;> rfl

/-- The patch site entered with an event that shares its region with none. -/
def ownSite (sched : ReplaySchedule) (ev : SchedEvent) (evI : ℕ) (m : FrameMeta) :
    List (ℕ × ℕ) :=
  if sched.patchable ev.kind = true ∧ ev.kind.aliasKey = none then [(asU32 evI, m.offset)] else []

/-- The alias entry of a region for the deliveries that may share it. -/
def registration (ev : SchedEvent) (evI : ℕ) (m : FrameMeta) : List (AliasKey × AliasVal) :=
  match ev.kind.aliasKey with
  | some key => [(key, ⟨m.offset, m.blkBase, m.blkCount, m.valid, asU32 evI⟩)]
  | none => []

namespace Built

variable {pre : List SchedEvent} {b : Build} (h : Built gt sched pre b) {ev : SchedEvent}
include h

theorem length : b.metas.length = pre.length := h.directory.length_eq.symm

/-- What the alias map knows of the messages of an event. -/
theorem lookup {key : AliasKey} {v : AliasVal} (hkey : ev.kind.aliasKey = some key)
    (hv : b.aliasMap.lookup key = some v) :
    ∃ i e m body, Lists pre b.metas i e m ∧ e.kind = ev.kind ∧ bodyOf gt ev.kind = some body ∧
      Entered sched b.blob b.triples e body m ∧
      (v.off, v.blkBase, v.blkCount, v.valid) = (m.offset, m.blkBase, m.blkCount, m.valid) := by
  obtain ⟨i, e, m, hi, hkey', hval⟩ := h.shared key v hv
  obtain ⟨body, hbody, hent⟩ := h.directory.lists hi
  have hkind : e.kind = ev.kind := bodyOf_alias (hkey'.trans hkey.symm) (by simp [hkey'])
  exact ⟨i, e, m, body, hi, hkind, hkind ▸ hbody, hent, hval⟩

/-- An event that renders nothing leaves a tombstone. -/
theorem skip (hnone : bodyOf gt ev.kind = none) {slot : List UInt8}
    (hslot : slot.length = ARENA_SLOT_SIZE) {cursors : Cursor × Cursor}
    (hc : cursors.1.Synced gt ∧ cursors.2.Synced gt) :
    Built gt sched (pre ++ [ev]) { b with
      scratch := slot
      cursors := cursors
      vts := b.vts ++ [ev.releaseVt.toNat]
      metas := b.metas ++ [{ feed := ev.feed }] } := by
  have hlists : ∀ i e m, Lists (pre ++ [ev]) (b.metas ++ [{ feed := ev.feed }]) i e m ↔
      Lists pre b.metas i e m := by
    intro i e m
    rw [Lists.snoc h.length]
    simp
  exact
    { size := by
        rw [blobLen_snoc, regionLen, hnone]
        simpa using h.size
      times := by simp [h.times]
      scratch := hslot
      cursors := hc
      triples := h.triples
      directory := List.rel_append h.directory (.cons (by simp [hnone]) .nil)
      apart := by
        intro i j e e' m m' hi hj
        exact h.apart i j e e' m m' ((hlists _ _ _).mp hi) ((hlists _ _ _).mp hj)
      keys := h.keys
      shared := by simpa only [hlists] using h.shared
      known := by simpa only [hlists] using h.known
      own := by simpa only [hlists] using h.own }

/-- A later delivery of the same messages shares their region and extends its gate. -/
theorem share {key : AliasKey} {v : AliasVal} {body : List UInt8}
    (hkey : ev.kind.aliasKey = some key) (hv : b.aliasMap.lookup key = some v)
    (hbody : bodyOf gt ev.kind = some body) {slot : List UInt8}
    (hslot : slot.length = ARENA_SLOT_SIZE) {cursors : Cursor × Cursor}
    (hc : cursors.1.Synced gt ∧ cursors.2.Synced gt) {m : FrameMeta}
    (hm : (m.offset, m.len, m.feed, m.blkBase, m.blkCount, m.valid, m.firstSeq) =
      (v.off, HEADER_LEN + body.length, ev.feed, v.blkBase, v.blkCount, v.valid,
        ev.kind.metaFirstSeq)) :
    Built gt sched (pre ++ [ev]) { b with
      scratch := slot
      cursors := cursors
      vts := b.vts ++ [ev.releaseVt.toNat]
      aliasedFrames := b.aliasedFrames + 1
      aliasMap := gate b.aliasMap key (asU32 pre.length)
      metas := b.metas ++ [m] } := by
  obtain ⟨i, e, m', body', hi, hkind, hbody', hent, hval⟩ := h.lookup hkey hv
  obtain rfl : body' = body := Option.some.inj (hbody'.symm.trans hbody)
  simp only [Prod.mk.injEq] at hm hval
  obtain ⟨hoff, hlen, hfeed, hbase, hcount, hvalid, hseq⟩ := hm
  obtain ⟨voff, vbase, vcount, vvalid⟩ := hval
  have hne : m.len ≠ 0 := by rw [hlen]; simp [HEADER_LEN]
  have hlen' : m.len = m'.len := by rw [hlen, hent.len]
  have hoff' : m.offset = m'.offset := hoff.trans voff
  have hmem : repeated pre ev.kind :=
    ⟨by simp [hkey], e, List.mem_of_getElem? hi.event, hkind⟩
  have hlookup : ∀ k, (gate b.aliasMap key (asU32 pre.length)).lookup k =
      (b.aliasMap.lookup k).map fun v =>
        if k = key then { v with lastEvt := max v.lastEvt (asU32 pre.length) } else v :=
    gate_lookup _ _ _
  exact
    { size := by
        rw [blobLen_snoc, regionLen, if_pos hmem]
        exact h.size
      times := by simp [h.times]
      scratch := hslot
      cursors := hc
      triples := h.triples
      directory := by
        refine List.rel_append h.directory (.cons ?_ .nil)
        simp only [hbody]
        exact
          { len := hlen
            bound := by rw [hoff', hlen']; exact hent.bound
            feed := hfeed
            firstSeq := hseq
            rest := by rw [hoff', hlen', hent.rest, hkind]
            fixed := by
              intro hp session
              rw [hoff', hent.fixed (hkind ▸ hp) session, hkind]
            blkCount := by rw [hcount, vcount, hent.blkCount, hkind]
            index := by rw [hbase, hcount, vbase, vcount, hent.index, hkind]
            valid := by rw [hvalid, vvalid, hent.valid, hkind] }
      apart := by
        apply h.apart.snoc h.length
        intro j e' d hj
        rcases h.apart j i e' e d m' hj hi with rfl | ⟨hk, -, ho⟩ | hd
        · obtain rfl : e = e' := Option.some.inj (hi.event.symm.trans hj.event)
          obtain rfl : m' = d := Option.some.inj (hi.entry.symm.trans hj.entry)
          exact .inl ⟨hkind, by simp [hkey], hoff'.symm⟩
        · exact .inl ⟨hk.trans hkind, by simp [hkey], ho.trans hoff'.symm⟩
        · rw [hoff', hlen']
          exact .inr hd
      keys := by rw [gate_keys]; exact h.keys
      shared := by
        intro k w hw
        rw [hlookup] at hw
        obtain ⟨u, hu, hw⟩ := Option.map_eq_some_iff.mp hw
        obtain ⟨j, e', d, hj, hk, hval⟩ := h.shared k u hu
        refine ⟨j, e', d, (Lists.snoc h.length).mpr (.inl hj), hk, ?_⟩
        rw [← hw]
        split
        · exact hval
        · exact hval
      known := by
        intro j e' d k hj hk
        simp only [hlookup]
        rcases (Lists.snoc h.length).mp hj with hold | ⟨rfl, rfl, rfl, -⟩
        · obtain ⟨u, hu, hoff, hgate⟩ := h.known j e' d k hold hk
          rw [hu]
          refine ⟨_, rfl, ?_, ?_⟩
          · split <;> exact hoff
          · split
            · exact le_max_of_le_left hgate
            · exact hgate
        · obtain rfl : key = k := Option.some.inj (hkey.symm.trans hk)
          rw [hv]
          refine ⟨_, rfl, ?_, ?_⟩
          · simpa using hoff.symm
          · simp
      own := by
        intro site
        rw [h.own]
        constructor
        · rintro ⟨j, e', d, hj, hrest⟩
          exact ⟨j, e', d, (Lists.snoc h.length).mpr (.inl hj), hrest⟩
        · rintro ⟨j, e', d, hj, hnokey, hrest⟩
          rcases (Lists.snoc h.length).mp hj with hold | ⟨rfl, rfl, rfl, -⟩
          · exact ⟨j, e', d, hold, hnokey, hrest⟩
          · rw [hkey] at hnokey
            cases hnokey }

/-- Messages the alias map does not know were not rendered before. -/
theorem fresh {body : List UInt8} (hbody : bodyOf gt ev.kind = some body)
    (hfresh : ∀ key, ev.kind.aliasKey = some key → b.aliasMap.lookup key = none) :
    ¬repeated pre ev.kind := by
  rintro ⟨hkey, e, he, hkind⟩
  obtain ⟨key, hkey⟩ := Option.ne_none_iff_exists'.mp hkey
  obtain ⟨i, hi⟩ := List.getElem?_of_mem he
  obtain ⟨hi', rfl⟩ := List.getElem?_eq_some_iff.mp hi
  have hm : i < b.metas.length := h.length ▸ hi'
  have hpair := h.directory.get hi' hm
  simp only [List.get_eq_getElem, hkind, hbody] at hpair
  obtain ⟨v, hv, -⟩ := h.known i _ _ key
    ⟨hi, List.getElem?_eq_getElem hm, by rw [hpair.len]; simp [HEADER_LEN]⟩ (hkind ▸ hkey)
  rw [hfresh key hkey] at hv
  cases hv

/-- An event rendered for the first time appends a region behind all others. -/
theorem region {body : List UInt8} (hbody : bodyOf gt ev.kind = some body)
    (hfresh : ∀ key, ev.kind.aliasKey = some key → b.aliasMap.lookup key = none)
    {slot : List UInt8} (hslot : slot.length = ARENA_SLOT_SIZE) {cursors : Cursor × Cursor}
    (hc : cursors.1.Synced gt ∧ cursors.2.Synced gt) {f : List UInt8} {more : List Triple}
    {m : FrameMeta} (hent : Entered sched (b.blob ++ f) (b.triples ++ more) ev body m)
    (hoff : m.offset = b.blob.length) (hf : f.length = m.len) (hmore : 2 * more.length ≤ f.length) :
    Built gt sched (pre ++ [ev]) { b with
      blob := b.blob ++ f
      scratch := slot
      cursors := cursors
      vts := b.vts ++ [ev.releaseVt.toNat]
      triples := b.triples ++ more
      patchEvts := b.patchEvts ++ ownSite sched ev pre.length m
      aliasMap := b.aliasMap ++ registration ev pre.length m
      metas := b.metas ++ [m] } := by
  have hne : m.len ≠ 0 := by rw [hent.len]; simp [HEADER_LEN]
  have hnew : Lists (pre ++ [ev]) (b.metas ++ [m]) pre.length ev m :=
    (Lists.snoc h.length).mpr (.inr ⟨rfl, rfl, rfl, hne⟩)
  have hrep := h.fresh hbody hfresh
  exact
    { size := by
        rw [blobLen_snoc, regionLen, if_neg hrep, hbody, List.length_append, h.size, hf, hent.len]
        rfl
      times := by simp [h.times]
      scratch := hslot
      cursors := hc
      triples := by
        have := h.triples
        simp only [List.length_append]
        omega
      directory := by
        refine List.rel_append h.directory.mono (.cons ?_ .nil)
        simp only [hbody]
        exact hent
      apart := by
        apply h.apart.snoc h.length
        intro j e d hj
        obtain ⟨body', -, hent'⟩ := h.directory.lists hj
        exact .inr (.inl (hoff ▸ hent'.bound))
      keys := by
        rw [List.map_append]
        apply h.keys.append
        · cases hkey : ev.kind.aliasKey <;> simp [registration, hkey]
        · intro key hin hin'
          cases hkey : ev.kind.aliasKey with
          | none => simp [registration, hkey] at hin'
          | some key' =>
              simp only [registration, hkey, List.map_cons, List.map_nil,
                List.mem_singleton] at hin'
              subst hin'
              obtain ⟨e, he, rfl⟩ := List.mem_map.mp hin
              exact absurd rfl (bne_iff_ne.mp (List.lookup_eq_none_iff.mp (hfresh _ hkey) e he))
      shared := by
        intro key v hv
        rw [List.lookup_append] at hv
        rcases Option.or_eq_some_iff.mp hv with hold | ⟨hnone, hreg⟩
        · obtain ⟨j, e, d, hj, hrest⟩ := h.shared key v hold
          exact ⟨j, e, d, (Lists.snoc h.length).mpr (.inl hj), hrest⟩
        · cases hkey : ev.kind.aliasKey with
          | none => simp [registration, hkey] at hreg
          | some key' =>
              simp only [registration, hkey, List.lookup_cons, List.lookup_nil] at hreg
              by_cases hk : key = key'
              · subst hk
                simp only [beq_self_eq_true, Option.some.injEq] at hreg
                subst hreg
                exact ⟨_, ev, m, hnew, hkey, rfl⟩
              · have : (key == key') = false := by simpa using hk
                simp [this] at hreg
      known := by
        intro j e d key hj hk
        rw [List.lookup_append]
        rcases (Lists.snoc h.length).mp hj with hold | ⟨rfl, rfl, rfl, -⟩
        · obtain ⟨v, hv, hrest⟩ := h.known j e d key hold hk
          exact ⟨v, by rw [hv, Option.some_or], hrest⟩
        · rw [hfresh key hk, Option.none_or]
          simp [registration, hk]
      own := by
        intro site
        rw [List.mem_append, h.own]
        constructor
        · rintro (⟨j, e, d, hj, hrest⟩ | hown)
          · exact ⟨j, e, d, (Lists.snoc h.length).mpr (.inl hj), hrest⟩
          · unfold ownSite at hown
            split at hown
            · rename_i hp
              exact ⟨_, ev, m, hnew, hp.2, hp.1, List.mem_singleton.mp hown⟩
            · cases hown
        · rintro ⟨j, e, d, hj, hnokey, hp, rfl⟩
          rcases (Lists.snoc h.length).mp hj with hold | ⟨rfl, rfl, rfl, -⟩
          · exact .inl ⟨j, e, d, hold, hnokey, hp, rfl⟩
          · right
            simp [ownSite, hnokey, hp] }

end Built

/-- The cursor of a feed is replaced by one in step. -/
theorem swap_synced {cursors : Cursor × Cursor}
    (h : cursors.1.Synced gt ∧ cursors.2.Synced gt) {c : Cursor} (hc : c.Synced gt)
    (second : Prop) [Decidable second] :
    let swapped := if second then (cursors.1, c) else (c, cursors.2)
    swapped.1.Synced gt ∧ swapped.2.Synced gt := by
  by_cases hs : second
  · simpa [hs] using ⟨h.1, hc⟩
  · simpa [hs] using ⟨hc, h.2⟩

/-- The length and the bytes of an event that renders. -/
theorem rendered_len {ev : SchedEvent} {session : SessionId} {r : Rendered} {body : List UInt8}
    (hslot : r.slot.length = ARENA_SLOT_SIZE)
    (hframe : r.len.map (fun len => r.slot.take len) = frameOf gt sched session ev.kind)
    (hle : ∀ len, r.len = some len → len ≤ ARENA_SLOT_SIZE)
    (hbody : bodyOf gt ev.kind = some body) :
    r.len = some (HEADER_LEN + body.length) ∧ r.slot.take (HEADER_LEN + body.length) =
      (sched.effectiveSession session ev.kind).1 ++ ev.kind.rest body := by
  rw [frameOf, hbody, Option.map_some, Option.map_eq_some_iff] at hframe
  obtain ⟨len, hlen, htake⟩ := hframe
  have hsess := (sched.effectiveSession session ev.kind).2
  have hlen' := congrArg List.length htake
  rw [List.length_take, hslot, Nat.min_eq_left (hle len hlen), List.length_append, hsess,
    SchedKind.rest_length, ← Nat.add_assoc] at hlen'
  rw [hlen'] at hlen htake
  exact ⟨hlen, htake⟩

/-- Only an entry of the alias map makes an outcome a shared region. -/
theorem aliasOutcome_aliased {b : Build} {kind : SchedKind} {len : ℕ} {key : AliasKey}
    {v : AliasVal} (h : b.aliasOutcome kind len = .aliased key v) :
    kind.aliasKey = some key ∧ b.aliasMap.lookup key = some v := by
  unfold Build.aliasOutcome at h
  split at h
  · cases h
  · rename_i k hkey
    split at h
    · cases h
    · rename_i w hw
      split at h
      · cases h
        exact ⟨hkey, hw⟩
      · cases h

/-- An entry behind everything laid out so far promises what its event needs. -/
theorem entered_behind (blob : List UInt8) {start : List UInt8} {triples : List Triple}
    {ev : SchedEvent} (body : List UInt8) {m : FrameMeta} (hstart : start.length = 10)
    (hfixed : sched.patchable ev.kind = false → ∀ session,
      start = (sched.effectiveSession session ev.kind).1)
    (hm : (m.offset, m.len, m.feed, m.firstSeq, m.blkCount, m.valid) =
      (blob.length, HEADER_LEN + body.length, ev.feed, ev.kind.metaFirstSeq,
        (ev.kind.blocks body).length,
        (validPrefix (cut (ev.kind.blank body) (ev.kind.blocks body))).length))
    (hbase : ev.kind.blocks body ≠ [] → m.blkBase = triples.length) :
    Entered sched (blob ++ (start ++ ev.kind.rest body)) (triples ++ ev.kind.blocks body) ev body
      m := by
  simp only [Prod.mk.injEq] at hm
  obtain ⟨hoff, hlen, hfeed, hseq, hcount, hvalid⟩ := hm
  have hrest := ev.kind.rest_length body
  have hsplit : blob.length + 10 = (blob ++ start).length := by
    rw [List.length_append, hstart]
  have htotal : blob.length + m.len = (blob ++ start).length + (ev.kind.rest body).length := by
    rw [List.length_append, hstart, hrest, hlen, HEADER_LEN]
    omega
  exact
    { len := hlen
      bound := by
        rw [hoff, htotal]
        simp only [List.length_append]
        omega
      feed := hfeed
      firstSeq := hseq
      rest := by
        rw [hoff, ← List.append_assoc, hsplit, htotal]
        exact slice_append_right _ _
      fixed := by
        intro hp session
        rw [hoff, ← List.append_assoc, slice_append_left (by simp [hstart]), ← hfixed hp session,
          ← hstart]
        exact slice_append_right _ _
      blkCount := hcount
      index := by
        by_cases hb : ev.kind.blocks body = []
        · rw [hcount, hb]
          simp [slice]
        · rw [hbase hb, hcount]
          exact slice_append_right _ _
      valid := hvalid }

/-- The block walk of a rendered frame finds its index. -/
theorem indexBlocks_spec {kind : SchedKind} {body : List UInt8}
    (hbody : bodyOf gt kind = some body) {session : SessionId} {slot : List UInt8}
    (htake : slot.take (HEADER_LEN + body.length) = session.1 ++ kind.rest body)
    (triples : List Triple) :
    ∃ base, indexBlocks slot triples (HEADER_LEN + body.length) kind =
      (triples ++ kind.blocks body, base, (kind.blocks body).length,
        (validPrefix (cut (kind.blank body) (kind.blocks body))).length) ∧
      (kind.blocks body ≠ [] → base = asU32 triples.length) := by
  cases hkind : kind with
  | heartbeat nextSeq =>
      exact ⟨0, by simp [indexBlocks, SchedKind.blocks, cut, validPrefix],
        fun h => absurd rfl h⟩
  | endOfSession nextSeq =>
      exact ⟨0, by simp [indexBlocks, SchedKind.blocks, cut, validPrefix],
        fun h => absurd rfl h⟩
  | packet firstSeq firstMsg count =>
      have harea := bodyOf_packet (hkind ▸ hbody)
      have hsess := session.2
      have hlen : (session.1 ++ kind.rest body).length = HEADER_LEN + body.length := by
        simp [hsess, HEADER_LEN]
        omega
      have hdrop := drop_frame session kind body
      have hblank : (session.1 ++ kind.rest body).drop HEADER_LEN =
          (kind.blank body).drop HEADER_LEN :=
        hdrop.trans (drop_frame ⟨List.replicate 10 0, rfl⟩ kind body).symm
      obtain ⟨hwalk, hcut⟩ := walkIndex_congr hblank count.toNat (Nat.le_refl _) firstSeq.toNat
      rw [hwalk] at hcut
      obtain ⟨htriples, hend, hn, hok, hvalid⟩ := chainLoop_spec
        (show slot.take (session.1 ++ kind.rest body).length = session.1 ++ kind.rest body by
          rw [hlen, htake]) count.toNat
        (c := { triples := triples, pos := HEADER_LEN, seq := firstSeq.toNat })
        (by rw [hdrop]; exact harea) (by rw [hlen]; exact Nat.le_add_right _ _) (Nat.le_refl _)
      rw [hlen] at htriples hend hn hok hvalid
      have hblocks : kind.blocks body =
          walkIndex (kind.blank body) count.toNat HEADER_LEN firstSeq.toNat := by
        rw [hkind]
        rfl
      refine ⟨asU32 triples.length, ?_, fun _ => rfl⟩
      simp only [indexBlocks, ← hkind, htriples, hend, hn, hok, hvalid, hblocks, hwalk, hcut,
        walkIndex_length]
      simp

/-- A packet that may share its region has a block for each of its messages. -/
theorem blocks_length {kind : SchedKind} {key : AliasKey} (hkey : kind.aliasKey = some key)
    (body : List UInt8) :
    (kind.blocks body).length = key.2.2.toNat ∧ key.2.2.toNat ≠ 0 := by
  cases kind with
  | heartbeat nextSeq => cases hkey
  | endOfSession nextSeq => cases hkey
  | packet firstSeq firstMsg count =>
      simp only [SchedKind.aliasKey] at hkey
      split at hkey
      · rename_i hpos
        cases hkey
        refine ⟨walkIndex_length _ _ _ _, ?_⟩
        have hpos' : (0 : UInt16).toNat < count.toNat := UInt16.lt_iff_toNat_lt.mp hpos
        exact Nat.ne_of_gt hpos'
      · cases hkey

/-- Every block of a frame takes at least two bytes of its body. -/
theorem blocks_length_le {kind : SchedKind} {body : List UInt8}
    (hbody : bodyOf gt kind = some body) :
    2 * (kind.blocks body).length ≤ HEADER_LEN + body.length := by
  cases kind with
  | heartbeat nextSeq => simp [SchedKind.blocks]
  | endOfSession nextSeq => simp [SchedKind.blocks]
  | packet firstSeq firstMsg count =>
      have := splitBlocks_room (bodyOf_packet hbody)
      rw [SchedKind.blocks, walkIndex_length]
      omega

/-- Zeroing the session of a frame just appended. -/
theorem writeAt_behind {a start rest zeros : List UInt8} (h : start.length = zeros.length) :
    writeAt (a ++ (start ++ rest)) a.length zeros = a ++ (zeros ++ rest) := by
  rw [writeAt, List.take_left, ← h, ← List.length_append, ← List.append_assoc a start rest,
    List.drop_left]

namespace Built

variable {pre : List SchedEvent} {b : Build} (h : Built gt sched pre b) {ev : SchedEvent}
include h

/-- A frame rendered for the first time gets a region of its own. -/
theorem append (session : SessionId) {body : List UInt8} (hbody : bodyOf gt ev.kind = some body)
    (hfresh : ∀ key, ev.kind.aliasKey = some key → b.aliasMap.lookup key = none)
    (hfit : b.blob.length < 2 ^ 32) {slot : List UInt8} (hslot : slot.length = ARENA_SLOT_SIZE)
    (htake : slot.take (HEADER_LEN + body.length) =
      (sched.effectiveSession session ev.kind).1 ++ ev.kind.rest body)
    {cursors : Cursor × Cursor} (hc : cursors.1.Synced gt ∧ cursors.2.Synced gt) :
    Built gt sched (pre ++ [ev])
      ({ b with
        scratch := slot
        cursors := cursors
        vts := b.vts ++ [ev.releaseVt.toNat] }.append sched pre.length ev
          (HEADER_LEN + body.length) false) := by
  have hoff : asU32 b.blob.length = b.blob.length := Nat.mod_eq_of_lt hfit
  have hbase : asU32 b.triples.length = b.triples.length :=
    Nat.mod_eq_of_lt (by have := h.triples; omega)
  have heff := (sched.effectiveSession session ev.kind).2
  obtain ⟨start, hstart, hfixed, hblob⟩ : ∃ start : List UInt8, start.length = 10 ∧
      (sched.patchable ev.kind = false → ∀ session,
        start = (sched.effectiveSession session ev.kind).1) ∧
      (if sched.patchable ev.kind = true then
          writeAt (b.blob ++ slot.take (HEADER_LEN + body.length)) b.blob.length
            (List.replicate 10 0)
        else b.blob ++ slot.take (HEADER_LEN + body.length)) =
          b.blob ++ (start ++ ev.kind.rest body) := by
    rw [htake]
    by_cases hp : sched.patchable ev.kind = true
    · refine ⟨List.replicate 10 0, by simp, by simp [hp], ?_⟩
      rw [if_pos hp, writeAt_behind (by simp [heff])]
    · refine ⟨_, heff, ?_, by rw [if_neg hp]⟩
      intro _ s
      have := effectiveSession_eq sched ev.kind session s
      rw [if_neg hp] at this
      rw [this]
  have hlen : (start ++ ev.kind.rest body).length = HEADER_LEN + body.length := by
    simp [hstart, HEADER_LEN]
    omega
  obtain ⟨base, hindex, hbase'⟩ := indexBlocks_spec hbody htake b.triples
  rw [hbase] at hbase'
  have hm := entered_behind b.blob body hstart
    hfixed (m := ⟨b.blob.length, HEADER_LEN + body.length, ev.feed, base,
      (ev.kind.blocks body).length,
      (validPrefix (cut (ev.kind.blank body) (ev.kind.blocks body))).length,
      ev.kind.metaFirstSeq⟩) rfl hbase'
  have hregion := h.region hbody hfresh hslot hc hm rfl hlen
    (by rw [hlen]; exact blocks_length_le hbody)
  have hkeyed : ∀ key, ev.kind.aliasKey = some key →
      (ev.kind.blocks body).length = key.2.2.toNat ∧ key.2.2.toNat ≠ 0 :=
    fun key hkey => blocks_length hkey body
  simp only [Build.append, hoff, hblob, hindex]
  convert hregion using 1
  simp only [Build.enter, registration, ownSite]
  cases hkey : ev.kind.aliasKey with
  | none => simp
  | some key =>
      obtain ⟨hlen, hpos⟩ := hkeyed key hkey
      have hmiss := hfresh key hkey
      simp [hlen, hpos, hmiss]

/-- The alias map's answer is right: a region it names holds the bytes just rendered. -/
theorem aliasOutcome (session : SessionId) {body : List UInt8}
    (hbody : bodyOf gt ev.kind = some body) {slot : List UInt8}
    (htake : slot.take (HEADER_LEN + body.length) =
      (sched.effectiveSession session ev.kind).1 ++ ev.kind.rest body)
    {cursors : Cursor × Cursor} {vts : List ℕ} :
    { b with scratch := slot, cursors := cursors, vts := vts }.aliasOutcome ev.kind
        (HEADER_LEN + body.length) =
      match ev.kind.aliasKey.bind fun key => (b.aliasMap.lookup key).map (key, ·) with
      | some (key, v) => .aliased key v
      | none => .primary := by
  unfold Build.aliasOutcome
  cases hkey : ev.kind.aliasKey with
  | none => rfl
  | some key =>
      cases hv : b.aliasMap.lookup key with
      | none => simp [hv]
      | some v =>
          obtain ⟨i, e, m, body', hi, hkind, hbody', hent, hval⟩ := h.lookup hkey hv
          obtain rfl : body' = body := Option.some.inj (hbody'.symm.trans hbody)
          simp only [Prod.mk.injEq] at hval
          have hbound := hent.bound
          rw [hent.len, ← hval.1] at hbound
          have hregion : slice b.blob (v.off + HEADER_LEN) (v.off + (HEADER_LEN + body'.length)) =
              body' := by
            have hrest := hent.rest
            rw [hent.len, ← hval.1] at hrest
            have := congrArg (List.drop 10) hrest
            rw [drop_slice] at this
            rw [show v.off + HEADER_LEN = v.off + 10 + 10 from rfl, this, SchedKind.rest,
              ← List.append_assoc, List.drop_append_of_le_length (by simp),
              List.drop_of_length_le (by simp), List.nil_append]
          have hscratch : slice slot HEADER_LEN (HEADER_LEN + body'.length) = body' := by
            have := congrArg (List.drop HEADER_LEN) htake
            rw [drop_frame, ← slice_zero, drop_slice, Nat.zero_add] at this
            exact this
          simp [hv, hbound, hregion, hscratch]

/-- One event of the construction keeps the layout. -/
theorem render (session : SessionId) (hfit : regionLen gt pre ev.kind ≠ 0 → b.blob.length < 2 ^ 32) :
    Built gt sched (pre ++ [ev]) (b.render gt sched session pre.length ev) := by
  have hsel : (if ev.feed.toNat % 2 = 1 then b.cursors.2 else b.cursors.1).Synced gt := by
    split
    · exact h.cursors.2
    · exact h.cursors.1
  obtain ⟨hslot, hsync, hframe, hle⟩ := renderEventStandalone_spec sched ev session
    h.scratch hsel
  have hc := swap_synced h.cursors hsync (ev.feed.toNat % 2 = 1)
  unfold Build.render
  simp only
  generalize renderEventStandalone gt ev sched session b.scratch _ = r at *
  cases hbody : bodyOf gt ev.kind with
  | none =>
      rw [frameOf, hbody, Option.map_none, Option.map_eq_none_iff] at hframe
      rw [hframe]
      exact h.skip hbody hslot hc
  | some body =>
      obtain ⟨hlen, htake⟩ := rendered_len hslot hframe hle hbody
      rw [hlen]
      simp only [Build.place, h.aliasOutcome session hbody htake]
      have hroom : ¬repeated pre ev.kind → b.blob.length < 2 ^ 32 := by
        intro hrep
        apply hfit
        rw [regionLen, if_neg hrep, hbody]
        simp [HEADER_LEN]
      cases hkey : ev.kind.aliasKey with
      | none =>
          have hfresh : ∀ key, ev.kind.aliasKey = some key → b.aliasMap.lookup key = none := by
            simp [hkey]
          exact h.append session hbody hfresh (hroom (h.fresh hbody hfresh)) hslot htake hc
      | some key =>
          cases hv : b.aliasMap.lookup key with
          | none =>
              have hfresh : ∀ k, ev.kind.aliasKey = some k → b.aliasMap.lookup k = none := by
                intro k hk
                obtain rfl : key = k := Option.some.inj (hkey.symm.trans hk)
                exact hv
              simp only [Option.bind_some, hv, Option.map_none]
              exact h.append session hbody hfresh (hroom (h.fresh hbody hfresh)) hslot htake hc
          | some v =>
              have hcount : v.blkCount ≠ 0 := by
                obtain ⟨_, _, _, _, _, hkind, _, hent, hval⟩ := h.lookup hkey hv
                simp only [Prod.mk.injEq] at hval
                rw [hval.2.2.1, hent.blkCount, hkind, (blocks_length hkey _).1]
                exact (blocks_length hkey body).2
              have hshare := h.share hkey hv hbody hslot hc
                (m := ⟨v.off, HEADER_LEN + body.length, ev.feed, v.blkBase, v.blkCount, v.valid,
                  ev.kind.metaFirstSeq⟩) rfl
              simp only [Option.bind_some, hv, Option.map_some]
              convert hshare using 1
              simp [Build.enter, hkey, hcount]

end Built

/-- The whole construction lays every event out. -/
theorem Built.renderAll (session : SessionId) {events : List SchedEvent}
    (hfit : OffsetsFit gt events) {pre post : List SchedEvent} (hsplit : events = pre ++ post)
    {b : Build} (h : Built gt sched pre b) :
    Built gt sched events (Build.renderAll gt sched session pre.length post b) := by
  induction post generalizing pre b with
  | nil =>
      rw [hsplit, List.append_nil]
      exact h
  | cons ev post ih =>
      have hstep : Built gt sched (pre ++ [ev]) _ := h.render session
        (fun hne => h.size ▸ hfit pre ev post hsplit hne)
      have hrest := ih (show events = (pre ++ [ev]) ++ post by rw [hsplit]; simp) hstep
      rw [List.length_append, List.length_singleton] at hrest
      exact hrest

end HftProj.Transport
