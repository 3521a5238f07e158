import HftProj.Arbitrator.Ladder
import HftProj.Lib.Sweep
import HftProj.Transport.Fidelity

/-!
# The publish-by-reference master

The entries of all the frames of a pass, built once. Between passes only the session words
and the steady-ok bit change: a budgeted walk rewrites them in the entries that carry the
resettable session, and the others keep what they were built with.
-/

namespace HftProj.Transport

open HftProj.Lib HftProj.Protocol HftProj.Protocol.Moldudp64 HftProj.Protocol.Packet
open HftProj.Arbitrator

/-- An entry of the master; `offset` and `len` stand for the slice of the blob. -/
structure MasterEntry where
  offset : ℕ
  len : ℕ
  feed : FeedId
  blocks : List Triple
  memo : Option FrameMemo
  firstSeq : ℕ
  sessLo : ℕ
  sessHi : ℕ
  elig : UInt8
  deriving DecidableEq

/-- The entries with their event numbers and their patchable flags. -/
structure Master where
  entries : List MasterEntry
  evts : List ℕ
  patchable : List Bool
  deriving DecidableEq

/-- The first compare word of a session: its bytes 0 to 8. -/
def sessLoOf (session : List UInt8) : ℕ := fromLeBytes (slice session 0 8)

/-- The second one: its bytes 2 to 10. -/
def sessHiOf (session : List UInt8) : ℕ := fromLeBytes (slice session 2 10)

/-- `(feed & 3) | (ok << 7)` -/
def eligByte (feed : UInt8) (ok : Bool) : UInt8 := (feed &&& 3) ||| if ok then FRAME_ELIG_OK else 0

namespace ReplayTransport

/-- The entry of a listed event, its session words read from the blob. -/
def masterEntry (t : ReplayTransport) (computeElig : Bool) (m : FrameMeta) : MasterEntry :=
  let tmplLo := sessLoOf t.session.1
  let tmplHi := sessHiOf t.session.1
  let frame := slice t.frames m.offset (m.offset + m.len)
  let sessLo := sessLoOf frame
  let sessHi := sessHiOf frame
  let eligOk := computeElig && m.blkCount != 0 && m.valid == m.blkCount && sessLo == tmplLo &&
    sessHi == tmplHi
  { offset := m.offset
    len := m.len
    feed := m.feed
    blocks := if m.blkCount = 0 then [] else slice t.triples m.blkBase (m.blkBase + m.blkCount)
    memo := if m.blkCount ≠ 0 then some ⟨m.valid⟩ else none
    firstSeq := m.firstSeq
    sessLo := sessLo
    sessHi := sessHi
    elig := eligByte m.feed eligOk }

/-- The directory entries that are emitted, with their event numbers. -/
def emittedMetas (t : ReplayTransport) : List (FrameMeta × ℕ) :=
  t.metas.zipIdx.filter fun row => row.1.len != 0

def buildFrameMaster (t : ReplayTransport) (computeElig : Bool) : Master where
  entries := t.emittedMetas.map fun row => t.masterEntry computeElig row.1
  evts := t.emittedMetas.map fun row => asU32 row.2
  patchable := t.emittedMetas.map fun row =>
    t.schedule.events[row.2]?.any fun ev => t.schedule.patchable ev.kind

end ReplayTransport

/-- The new session's words, and the steady-ok bit from the entry's own static fields. -/
def MasterEntry.patch (computeElig : Bool) (sessLo sessHi : ℕ) (e : MasterEntry) : MasterEntry :=
  let staticOk := computeElig && !e.blocks.isEmpty && e.memo == some ⟨e.blocks.length % 2 ^ 16⟩
  { e with sessLo := sessLo, sessHi := sessHi, elig := eligByte e.elig staticOk }

/-! ## Session words and the steady-ok bit -/

/-- The compare words tell sessions apart. -/
theorem sessWords_iff {a b : List UInt8} (ha : a.length = 10) (hb : b.length = 10) :
    sessLoOf a = sessLoOf b ∧ sessHiOf a = sessHiOf b ↔ a = b := by
  constructor
  · rintro ⟨hlo, hhi⟩
    have hlo' : slice a 0 8 = slice b 0 8 := by
      apply fromLeBytes_injective _ hlo
      rw [slice_length (by omega), slice_length (by omega)]
    have hhi' : slice a 2 10 = slice b 2 10 := by
      apply fromLeBytes_injective _ hhi
      rw [slice_length (by omega), slice_length (by omega)]
    have hback := congrArg (List.drop 6) hhi'
    rw [drop_slice, drop_slice] at hback
    have hwhole : ∀ l : List UInt8, l.length = 10 → slice l 0 8 ++ slice l 8 10 = l := by
      intro l hl
      rw [slice_split 8 (by decide) (by decide), slice_zero, List.take_of_length_le hl.le]
    rw [← hwhole a ha, ← hwhole b hb, hlo', hback]
  · rintro rfl
    exact ⟨rfl, rfl⟩

theorem uint8_or_and (a b c : UInt8) : (a ||| b) &&& c = (a &&& c) ||| (b &&& c) := by
  apply UInt8.eq_of_toBitVec_eq
  ext i hi
  simp [Bool.and_or_distrib_right]

theorem eligByte_low (feed : UInt8) (ok : Bool) : eligByte feed ok &&& 3 = feed &&& 3 := by
  have hbits : ∀ a x : UInt8, x &&& 3 = 0 → ((a &&& 3) ||| x) &&& 3 = a &&& 3 := by
    intro a x hx
    rw [uint8_or_and, hx, UInt8.and_assoc, UInt8.and_self, UInt8.or_zero]
  unfold eligByte
  split
  · exact hbits _ _ (by decide)
  · exact hbits _ _ (by decide)

/-- The bit is rewritten, whatever it was. -/
theorem eligByte_eligByte (feed : UInt8) (ok ok' : Bool) :
    eligByte (eligByte feed ok) ok' = eligByte feed ok' := by
  rw [eligByte, eligByte_low]
  rfl

theorem eligByte_bit (feed : UInt8) (ok : Bool) :
    eligByte feed ok &&& FRAME_ELIG_OK ≠ 0 ↔ ok = true := by
  have hbits : (feed &&& 3) &&& FRAME_ELIG_OK = 0 := by
    rw [UInt8.and_assoc]
    exact UInt8.and_zero
  unfold eligByte
  rw [uint8_or_and, hbits]
  cases ok <;> decide

theorem eligByte_inj {feed : UInt8} {ok ok' : Bool} :
    eligByte feed ok = eligByte feed ok' ↔ ok = ok' := by
  constructor
  · intro h
    rw [Bool.eq_iff_iff, ← eligByte_bit feed, ← eligByte_bit feed, h]
  · exact congrArg _

namespace Master

/-- Patch the entries of events below `uptoEvt` from a cursor on: the cursor reached, the
number of entries patched and the master left. -/
def masterPatchRange (M : Master) (fromIdx uptoEvt sessLo sessHi : ℕ) (computeElig : Bool)
    (budget : ℕ) : ℕ × ℕ × Master :=
  let r := sweep (MasterEntry.patch computeElig sessLo sessHi)
    (fun i => decide (M.evts.getD i 0 < uptoEvt)) (fun i => M.patchable.getD i false)
    (min budget (M.entries.length - fromIdx)) fromIdx 0 M.entries
  (r.1, r.2.1, { M with entries := r.2.2 })

/-- How a session gets into the master: steps with a frontier and a budget each, every one
from the cursor of the one before, or the full bake. -/
inductive Bake where
  | steps (walk : List (ℕ × ℕ))
  | full
  deriving DecidableEq

def USIZE_MAX : ℕ := 2 ^ 64 - 1

def patchSteps (computeElig : Bool) (session : SessionId) (walk : List (ℕ × ℕ))
    (r : ℕ × Master) : ℕ × Master :=
  walk.foldl (fun r step =>
    let p := r.2.masterPatchRange r.1 step.1 (sessLoOf session.1) (sessHiOf session.1) computeElig
      step.2
    (p.1, p.2.2)) r

/-- The cursor reached and the master left. -/
def bake (computeElig : Bool) (session : SessionId) (M : Master) : Bake → ℕ × Master
  | .steps walk => patchSteps computeElig session walk (0, M)
  | .full => patchSteps computeElig session [(USIZE_MAX, USIZE_MAX)] (0, M)

/-- The sessions baked one after the other. -/
def bakeAll (computeElig : Bool) (M : Master) (bakes : List (SessionId × Bake)) : Master :=
  bakes.foldl (fun M b => (M.bake computeElig b.1 b.2).2) M

/-- The steps reach the end of the array; the full bake does so for every array that can be
addressed. -/
def Completes (M : Master) (computeElig : Bool) : SessionId × Bake → Prop
  | (session, .steps walk) => (M.bake computeElig session (.steps walk)).1 = M.entries.length
  | (_, .full) => M.entries.length ≤ USIZE_MAX

/-- The fields that a session decides. -/
def sessionFields (M : Master) : List (ℕ × ℕ × UInt8) :=
  M.entries.map fun e => (e.sessLo, e.sessHi, e.elig)

/-- The steady-ok bit, where it is computed, is set exactly for the entries with a block index,
an all-valid memo and the session baked. -/
def EligExact (M : Master) (computeElig : Bool) (session : SessionId) : Prop :=
  ∀ e ∈ M.entries, e.elig &&& FRAME_ELIG_OK ≠ 0 ↔ computeElig = true ∧ e.blocks ≠ [] ∧
    e.memo = some ⟨e.blocks.length⟩ ∧ e.sessLo = sessLoOf session.1 ∧ e.sessHi = sessHiOf session.1

/-! ## Walks -/

variable (M : Master) (computeElig : Bool) (session : SessionId)

/-- The patchable entries below a cursor patched. -/
def patchedTo (k : ℕ) : Master :=
  { M with entries := swept (MasterEntry.patch computeElig (sessLoOf session.1)
      (sessHiOf session.1)) (fun i => M.patchable.getD i false) k M.entries }

theorem patchedTo_zero : M.patchedTo computeElig session 0 = M :=
  congrArg (fun es => ({ M with entries := es } : Master)) (swept_zero _ _ _)

theorem masterPatchRange_patchedTo (k uptoEvt budget : ℕ) :
    ∃ patched, (M.patchedTo computeElig session k).masterPatchRange k uptoEvt
        (sessLoOf session.1) (sessHiOf session.1) computeElig budget =
      let k' := ((M.patchedTo computeElig session k).masterPatchRange k uptoEvt
        (sessLoOf session.1) (sessHiOf session.1) computeElig budget).1
      (k', patched, M.patchedTo computeElig session k') := by
  obtain ⟨hswept, -⟩ := sweep_swept (MasterEntry.patch computeElig (sessLoOf session.1)
    (sessHiOf session.1)) (fun i => decide (M.evts.getD i 0 < uptoEvt))
    (fun i => M.patchable.getD i false) (min budget (M.entries.length - k)) k 0 M.entries
  simp only [masterPatchRange, patchedTo, swept_length]
  exact ⟨_, Prod.ext rfl (Prod.ext rfl
    (congrArg (fun es => ({ M with entries := es } : Master)) hswept))⟩

theorem patchSteps_patchedTo (walk : List (ℕ × ℕ)) (k : ℕ) :
    let r := patchSteps computeElig session walk (k, M.patchedTo computeElig session k)
    r.2 = M.patchedTo computeElig session r.1 := by
  induction walk generalizing k with
  | nil => rfl
  | cons step walk ih =>
      obtain ⟨patched, hstep⟩ := M.masterPatchRange_patchedTo computeElig session k step.1 step.2
      rw [patchSteps, List.foldl_cons, ← patchSteps, hstep]
      exact ih _

/-- The walk from the start of the array leaves the entries below its cursor patched. -/
theorem patchSteps_start (walk : List (ℕ × ℕ)) :
    let r := patchSteps computeElig session walk (0, M)
    r.2 = M.patchedTo computeElig session r.1 := by
  have hwalk := M.patchSteps_patchedTo computeElig session walk 0
  rw [patchedTo_zero] at hwalk
  exact hwalk

variable {M computeElig session}

/-- A completed bake has patched every patchable entry. -/
theorem bake_eq (hevts : ∀ evt ∈ M.evts, evt < 2 ^ 32) {b : Bake}
    (h : M.Completes computeElig (session, b)) :
    (M.bake computeElig session b).2 = M.patchedTo computeElig session M.entries.length := by
  have hwalk := M.patchSteps_start computeElig session
  cases b with
  | steps walk =>
      have hend : (patchSteps computeElig session walk (0, M)).1 = M.entries.length := h
      rw [bake, hwalk, hend]
  | full =>
      have hopen : ∀ i, i < 0 + min USIZE_MAX (M.entries.length - 0) →
          decide (M.evts.getD i 0 < USIZE_MAX) = true := by
        intro i _
        rw [decide_eq_true_eq, List.getD_eq_getElem?_getD]
        cases hi : M.evts[i]? with
        | none => exact (by decide : 0 < USIZE_MAX)
        | some evt => exact (hevts evt (List.mem_of_getElem? hi)).trans (by decide)
      have hend : (patchSteps computeElig session [(USIZE_MAX, USIZE_MAX)] (0, M)).1 =
          M.entries.length := by
        refine (sweep_open _ _ _ hopen 0 M.entries).trans ?_
        rw [Nat.zero_add, Nat.sub_zero]
        exact Nat.min_eq_right h
      rw [bake, hwalk, hend]

theorem patch_patch (e : MasterEntry) (computeElig : Bool) (lo hi lo' hi' : ℕ) :
    (e.patch computeElig lo hi).patch computeElig lo' hi' = e.patch computeElig lo' hi' := by
  simp only [MasterEntry.patch, eligByte_eligByte]

/-- Completed bakes, one after the other, leave what the last one leaves alone. -/
theorem bakeAll_eq (hevts : ∀ evt ∈ M.evts, evt < 2 ^ 32) {bakes : List (SessionId × Bake)}
    (h : ∀ pre p post, bakes = pre ++ p :: post →
      (bakeAll computeElig M pre).Completes computeElig p) :
    bakeAll computeElig M bakes =
      (bakes.getLast?.map fun p => M.patchedTo computeElig p.1 M.entries.length).getD M := by
  induction bakes using List.reverseRecOn with
  | nil => rfl
  | append_singleton bakes p ih =>
      have hinit := ih fun pre q post hq => h pre q (post ++ [p]) (by rw [hq]; simp)
      have hlast := h bakes p [] rfl
      have hsnoc : bakeAll computeElig M (bakes ++ [p]) =
          ((bakeAll computeElig M bakes).bake computeElig p.1 p.2).2 := by
        rw [bakeAll, List.foldl_append]
        rfl
      rw [hsnoc, List.getLast?_concat]
      rw [hinit] at hlast ⊢
      cases hprev : bakes.getLast? with
      | none =>
          rw [hprev] at hlast
          exact bake_eq hevts hlast
      | some q =>
          rw [hprev] at hlast
          refine (bake_eq (M := M.patchedTo computeElig q.1 M.entries.length) hevts hlast).trans ?_
          simp only [patchedTo, swept_length]
          rw [swept_swept _ _ fun e => patch_patch e _ _ _ _ _]
          rfl

theorem mem_evts {t : ReplayTransport} {evt : ℕ} (h : evt ∈ (t.buildFrameMaster computeElig).evts) :
    evt < 2 ^ 32 := by
  obtain ⟨row, -, rfl⟩ := List.mem_map.mp h
  exact Nat.mod_lt _ (Nat.two_pow_pos 32)

end Master

/-! ## One entry -/

variable {gt : List UInt8} {sched : ReplaySchedule} {computeElig : Bool}

/-- An entry with a session filled in. -/
def entryOf (triples : List Triple) (m : FrameMeta) (session : SessionId) (elig : UInt8) :
    MasterEntry where
  offset := m.offset
  len := m.len
  feed := m.feed
  blocks := if m.blkCount = 0 then [] else slice triples m.blkBase (m.blkBase + m.blkCount)
  memo := if m.blkCount ≠ 0 then some ⟨m.valid⟩ else none
  firstSeq := m.firstSeq
  sessLo := sessLoOf session.1
  sessHi := sessHiOf session.1
  elig := elig

/-- What of the steady-ok bit no session decides. -/
def staticOk (computeElig : Bool) (m : FrameMeta) : Bool :=
  computeElig && m.blkCount != 0 && m.valid == m.blkCount

/-- The event renders to a frame with messages, and all of them are valid. -/
def SchedKind.Steady (gt : List UInt8) (kind : SchedKind) : Prop :=
  ∃ body, bodyOf gt kind = some body ∧ kind.blocks body ≠ [] ∧
    (validPrefix (cut (kind.blank body) (kind.blocks body))).length = (kind.blocks body).length

section Entry

variable {t : ReplayTransport} (h : t.Laid gt sched) {i : ℕ} {ev : SchedEvent} {m : FrameMeta}
  (hi : Lists sched.events t.metas i ev m)
include h hi

/-- The entry built for an event carries its frame's session. -/
theorem masterEntry_eq (hbaked : t.Baked t.session) :
    t.masterEntry computeElig m = entryOf t.triples m (sched.effectiveSession t.session ev.kind)
      (eligByte m.feed (staticOk computeElig m &&
        decide (sched.effectiveSession t.session ev.kind = t.session))) := by
  obtain ⟨body, -, hent⟩ := h.directory.lists hi
  have hlen := hent.len
  simp only [HEADER_LEN] at hlen
  have hhead := h.header hbaked hi
  have hbytes : ∀ a b, b ≤ 10 → slice (slice t.frames m.offset (m.offset + m.len)) a b =
      slice (sched.effectiveSession t.session ev.kind).1 a b := by
    intro a b hb
    rw [← hhead, slice_slice (by omega), slice_slice (by omega)]
  have hwords : sessLoOf (slice t.frames m.offset (m.offset + m.len)) =
        sessLoOf (sched.effectiveSession t.session ev.kind).1 ∧
      sessHiOf (slice t.frames m.offset (m.offset + m.len)) =
        sessHiOf (sched.effectiveSession t.session ev.kind).1 :=
    ⟨congrArg fromLeBytes (hbytes 0 8 (by decide)), congrArg fromLeBytes (hbytes 2 10 (by decide))⟩
  have hsame : (sessLoOf (sched.effectiveSession t.session ev.kind).1 == sessLoOf t.session.1 &&
      sessHiOf (sched.effectiveSession t.session ev.kind).1 == sessHiOf t.session.1) =
        decide (sched.effectiveSession t.session ev.kind = t.session) := by
    rw [Bool.eq_iff_iff, Bool.and_eq_true, beq_iff_eq, beq_iff_eq, decide_eq_true_eq,
      sessWords_iff (sched.effectiveSession t.session ev.kind).2 t.session.2, Subtype.ext_iff]
  simp only [ReplayTransport.masterEntry, hwords, Bool.and_assoc, hsame, entryOf, staticOk]

/-- Patching fills a session in and decides the bit without it. -/
theorem patch_entryOf (session session' : SessionId) (feed : UInt8) (ok : Bool) :
    (entryOf t.triples m session (eligByte feed ok)).patch computeElig (sessLoOf session'.1)
        (sessHiOf session'.1) =
      entryOf t.triples m session' (eligByte feed (staticOk computeElig m)) := by
  obtain ⟨body, hbody, hent⟩ := h.directory.lists hi
  have hshort : m.blkCount < 2 ^ 16 := by
    have hle := blocks_length_le hbody
    have hroom := bodyOf_length hbody
    rw [hent.blkCount]
    simp only [ARENA_SLOT_SIZE] at hroom
    omega
  have hlen : (slice t.triples m.blkBase (m.blkBase + m.blkCount)).length = m.blkCount := by
    rw [hent.index, hent.blkCount]
  have hstatic : (computeElig && !(entryOf t.triples m session (eligByte feed ok)).blocks.isEmpty &&
      (entryOf t.triples m session (eligByte feed ok)).memo ==
        some ⟨(entryOf t.triples m session (eligByte feed ok)).blocks.length % 2 ^ 16⟩) =
      staticOk computeElig m := by
    simp only [entryOf, staticOk]
    by_cases hz : m.blkCount = 0
    · simp [hz]
    · have hne : (slice t.triples m.blkBase (m.blkBase + m.blkCount)).isEmpty = false := by
        rw [List.isEmpty_eq_false_iff, ← List.length_pos_iff, hlen]
        exact Nat.pos_of_ne_zero hz
      have hbne : (m.blkCount != 0) = true := bne_iff_ne.mpr hz
      simp only [hz, if_false, ne_eq, not_false_eq_true, if_true, hne, hlen,
        Nat.mod_eq_of_lt hshort, hbne]
      simp [beq_eq_decide]
  simp only [MasterEntry.patch, hstatic]
  simp only [entryOf, eligByte_eligByte]

/-- Whether the event is steady is what the directory says of it. -/
theorem staticOk_iff : staticOk computeElig m = true ↔ computeElig = true ∧ ev.kind.Steady gt := by
  obtain ⟨body, hbody, hent⟩ := h.directory.lists hi
  have hcount : m.blkCount ≠ 0 ↔ ev.kind.blocks body ≠ [] := by
    rw [hent.blkCount, ne_eq, List.length_eq_zero_iff]
  rw [staticOk, Bool.and_eq_true, Bool.and_eq_true, bne_iff_ne, beq_iff_eq, hcount, hent.valid,
    hent.blkCount, and_assoc]
  apply and_congr_right
  intro _
  constructor
  · exact fun hsteady => ⟨body, hbody, hsteady⟩
  · rintro ⟨body', hbody', hsteady⟩
    rw [hbody] at hbody'
    cases hbody'
    exact hsteady

end Entry

/-! ## The patched master and the rebuilt one -/

/-- The steady-ok bit of some frame of the second session, built for one session, is another
one when the other session is baked. -/
def Stale (gt : List UInt8) (sched : ReplaySchedule) (computeElig : Bool)
    (built baked : SessionId) : Prop :=
  computeElig = true ∧ ∃ ev ∈ sched.events, sched.patchable ev.kind = false ∧
    ev.kind.Steady gt ∧
      ¬(sched.effectiveSession built ev.kind = built ↔
        sched.effectiveSession baked ev.kind = baked)

section Rebuild

variable {t t' : ReplayTransport}

theorem mem_emittedMetas {row : FrameMeta × ℕ} :
    row ∈ t.emittedMetas ↔ t.metas[row.2]? = some row.1 ∧ row.1.len ≠ 0 := by
  rw [ReplayTransport.emittedMetas, List.mem_filter, bne_iff_ne, List.mem_zipIdx_iff_getElem?]

/-- The emitted entries are those of the events that were rendered. -/
theorem emitted_lists (h : t.Laid gt sched) {row : FrameMeta × ℕ} (hrow : row ∈ t.emittedMetas) :
    ∃ ev, Lists sched.events t.metas row.2 ev row.1 := by
  obtain ⟨hm, hlen⟩ := mem_emittedMetas.mp hrow
  have hlt : row.2 < sched.events.length := by
    rw [h.directory.length_eq]
    exact (List.getElem?_eq_some_iff.mp hm).1
  exact ⟨_, List.getElem?_eq_getElem hlt, hm, hlen⟩

/-- A patched entry against the one built for the new session. -/
theorem patched_entry (h : t.Laid gt sched) (h' : t'.Laid gt sched)
    (hb : t.Baked t.session) (hb' : t'.Baked t'.session) (hmetas : t'.metas = t.metas)
    (htriples : t'.triples = t.triples) {i : ℕ} {ev : SchedEvent} {m : FrameMeta}
    (hi : Lists sched.events t.metas i ev m) :
    let patched := if sched.patchable ev.kind then
        (t.masterEntry computeElig m).patch computeElig (sessLoOf t'.session.1)
          (sessHiOf t'.session.1)
      else t.masterEntry computeElig m
    (patched.elig = (t'.masterEntry computeElig m).elig ↔
        ¬(sched.patchable ev.kind = false ∧ (computeElig = true ∧ ev.kind.Steady gt) ∧
          ¬(sched.effectiveSession t.session ev.kind = t.session ↔
            sched.effectiveSession t'.session ev.kind = t'.session))) ∧
      (patched.elig = (t'.masterEntry computeElig m).elig →
        patched = t'.masterEntry computeElig m) := by
  have hi' : Lists sched.events t'.metas i ev m := hmetas ▸ hi
  rw [masterEntry_eq h hi hb, masterEntry_eq h' hi' hb', htriples, ← staticOk_iff h hi]
  have heff := effectiveSession_eq sched ev.kind t.session t'.session
  have heff' := effectiveSession_eq sched ev.kind t'.session t'.session
  dsimp only
  by_cases hp : sched.patchable ev.kind = true
  · rw [if_pos hp] at heff' ⊢
    rw [patch_entryOf h hi, heff']
    simp [entryOf, hp]
  · rw [if_neg hp] at heff ⊢
    have hpf : sched.patchable ev.kind = false := by simpa using hp
    have hsame : ∀ ok ok', entryOf t.triples m (sched.effectiveSession t.session ev.kind)
        (eligByte m.feed ok) = entryOf t.triples m (sched.effectiveSession t'.session ev.kind)
          (eligByte m.feed ok') ↔ ok = ok' := by
      intro ok ok'
      rw [heff]
      constructor
      · exact fun heq => eligByte_inj.mp (congrArg MasterEntry.elig heq)
      · rintro rfl
        rfl
    constructor
    · change eligByte _ _ = eligByte _ _ ↔ _
      rw [eligByte_inj, hpf]
      cases staticOk computeElig m with
      | false => simp
      | true => simp
    · intro helig
      exact (hsame _ _).mpr (eligByte_inj.mp helig)

/-- The built master has the steady-ok bit right. -/
theorem eligExact_build (h : t.Laid gt sched) (hb : t.Baked t.session) :
    (t.buildFrameMaster computeElig).EligExact computeElig t.session := by
  intro e he
  obtain ⟨row, hrow, rfl⟩ := List.mem_map.mp he
  obtain ⟨ev, hi⟩ := emitted_lists h hrow
  obtain ⟨body, hbody, hent⟩ := h.directory.lists hi
  have hlen : (slice t.triples row.1.blkBase (row.1.blkBase + row.1.blkCount)).length =
      row.1.blkCount := by
    rw [hent.index, hent.blkCount]
  rw [masterEntry_eq h hi hb]
  have hsame := sessWords_iff (sched.effectiveSession t.session ev.kind).2 t.session.2
  rw [← Subtype.ext_iff] at hsame
  simp only [entryOf]
  rw [eligByte_bit, Bool.and_eq_true, decide_eq_true_eq, ← hsame, staticOk, Bool.and_eq_true,
    Bool.and_eq_true, bne_iff_ne, beq_iff_eq, and_assoc, and_assoc]
  by_cases hz : row.1.blkCount = 0
  · simp [hz]
  · have hne : slice t.triples row.1.blkBase (row.1.blkBase + row.1.blkCount) ≠ [] := by
      rw [← List.length_pos_iff, hlen]
      exact Nat.pos_of_ne_zero hz
    simp [hz, hne, hlen]

/-- An entry that a completed bake leaves. -/
def ReplayTransport.bakedEntry (t : ReplayTransport) (computeElig : Bool) (session : SessionId)
    (row : FrameMeta × ℕ) : MasterEntry :=
  if t.schedule.events[row.2]?.any fun ev => t.schedule.patchable ev.kind then
    (t.masterEntry computeElig row.1).patch computeElig (sessLoOf session.1) (sessHiOf session.1)
  else t.masterEntry computeElig row.1

theorem patchedTo_entries (t : ReplayTransport) (computeElig : Bool) (session : SessionId) :
    let M := t.buildFrameMaster computeElig
    (M.patchedTo computeElig session M.entries.length).entries =
      t.emittedMetas.map (t.bakedEntry computeElig session) := by
  have hlen : (t.buildFrameMaster computeElig).entries.length = t.emittedMetas.length :=
    List.length_map _
  dsimp only
  rw [hlen]
  exact swept_map _ (fun row : FrameMeta × ℕ => t.masterEntry computeElig row.1) _ rfl

/-- A master patched to a session has the fields of the one built for it exactly when no frame
of the second session is stale; then it has all its entries. -/
theorem patched_fields_iff (computeElig : Bool) (h : t.Laid gt sched) (h' : t'.Laid gt sched)
    (hb : t.Baked t.session) (hb' : t'.Baked t'.session) (hmetas : t'.metas = t.metas)
    (htriples : t'.triples = t.triples) :
    let M := t.buildFrameMaster computeElig
    let P := M.patchedTo computeElig t'.session M.entries.length
    let R := t'.buildFrameMaster computeElig
    (P.sessionFields = R.sessionFields ↔ ¬Stale gt sched computeElig t.session t'.session) ∧
      (P.sessionFields = R.sessionFields → P.entries = R.entries) := by
  have hrebuilt : (t'.buildFrameMaster computeElig).entries =
      t.emittedMetas.map fun row : FrameMeta × ℕ => t'.masterEntry computeElig row.1 := by
    rw [ReplayTransport.buildFrameMaster, ReplayTransport.emittedMetas, hmetas]
    rfl
  -- the entry of one event, against the one rebuilt for it
  have hrow : ∀ {i ev m}, Lists sched.events t.metas i ev m →
      ((t.bakedEntry computeElig t'.session (m, i)).elig = (t'.masterEntry computeElig m).elig ↔
        ¬(sched.patchable ev.kind = false ∧ (computeElig = true ∧ ev.kind.Steady gt) ∧
          ¬(sched.effectiveSession t.session ev.kind = t.session ↔
            sched.effectiveSession t'.session ev.kind = t'.session))) ∧
      ((t.bakedEntry computeElig t'.session (m, i)).elig = (t'.masterEntry computeElig m).elig →
        t.bakedEntry computeElig t'.session (m, i) = t'.masterEntry computeElig m) := by
    intro i ev m hi
    have hpatch : t.schedule.events[i]?.any (fun ev => t.schedule.patchable ev.kind) =
        sched.patchable ev.kind := by
      rw [h.schedule, hi.event]
      rfl
    rw [ReplayTransport.bakedEntry]
    simp only [hpatch]
    exact patched_entry h h' hb hb' hmetas htriples hi
  have hall : (∀ row ∈ t.emittedMetas, (t.bakedEntry computeElig t'.session row).elig =
      (t'.masterEntry computeElig row.1).elig) ↔
        ¬Stale gt sched computeElig t.session t'.session := by
    constructor
    · rintro heq ⟨hcompute, ev, hev, hp, hsteady, hne⟩
      obtain ⟨i, hget, rfl⟩ := List.mem_iff_getElem.mp hev
      have hlt : i < t.metas.length := by
        rw [← h.directory.length_eq]
        exact hget
      have ⟨body, hbody, _⟩ := hsteady
      have hpair := h.directory.get hget hlt
      simp only [List.get_eq_getElem, hbody] at hpair
      have hi : Lists sched.events t.metas i sched.events[i] t.metas[i] :=
        ⟨List.getElem?_eq_getElem hget, List.getElem?_eq_getElem hlt, by
          rw [hpair.len]
          simp [HEADER_LEN]⟩
      exact (hrow hi).1.mp (heq (t.metas[i], i) (mem_emittedMetas.mpr ⟨hi.entry, hi.len⟩))
        ⟨hp, ⟨hcompute, hsteady⟩, hne⟩
    · intro hfresh row hmem
      obtain ⟨ev, hi⟩ := emitted_lists h hmem
      apply (hrow hi).1.mpr
      rintro ⟨hp, ⟨hcompute, hsteady⟩, hne⟩
      exact hfresh ⟨hcompute, ev, List.mem_of_getElem? hi.event, hp, hsteady, hne⟩
  have hwhole : (∀ row ∈ t.emittedMetas, (t.bakedEntry computeElig t'.session row).elig =
      (t'.masterEntry computeElig row.1).elig) → ∀ row ∈ t.emittedMetas,
        t.bakedEntry computeElig t'.session row = t'.masterEntry computeElig row.1 := by
    intro heq row hmem
    obtain ⟨ev, hi⟩ := emitted_lists h hmem
    exact (hrow hi).2 (heq row hmem)
  dsimp only
  have hfields : ((t.buildFrameMaster computeElig).patchedTo computeElig t'.session
      (t.buildFrameMaster computeElig).entries.length).sessionFields =
        (t'.buildFrameMaster computeElig).sessionFields ↔
      ∀ row ∈ t.emittedMetas, (t.bakedEntry computeElig t'.session row).elig =
        (t'.masterEntry computeElig row.1).elig := by
    rw [Master.sessionFields, Master.sessionFields, patchedTo_entries, hrebuilt, List.map_map,
      List.map_map, List.map_inj_left]
    constructor
    · exact fun heq row hmem => congrArg (fun fields => fields.2.2) (heq row hmem)
    · intro heq row hmem
      exact congrArg (fun e : MasterEntry => (e.sessLo, e.sessHi, e.elig)) (hwhole heq row hmem)
  refine ⟨hfields.trans hall, fun heq => ?_⟩
  rw [patchedTo_entries, hrebuilt, List.map_inj_left]
  exact hwhole (hfields.mp heq)

end Rebuild

/-! ## The law of the master -/

namespace ReplayTransport

theorem applyAll_triples (t : ReplayTransport) (ops : List Op) :
    (t.applyAll ops).triples = t.triples := by
  induction ops generalizing t with
  | nil => rfl
  | cons op ops ih =>
      refine (ih (t.apply op)).trans ?_
      cases op with
      | poll maxVt =>
          obtain ⟨eventIdx, virtualClock, batchEvent, heq⟩ := t.pollClamped_frame maxVt
          rw [apply, heq]
      | reset session => rfl
      | setPollCoalesce k => rfl
      | setClockClamp clamp => rfl

end ReplayTransport

/-- The master built with the session `built`, after completed bakes of some sessions and of a
last one, has the session fields of the master built over a blob that was reset to the last
one, and its steady-ok bits are right. -/
def PatchedIsRebuilt (gt : List UInt8) (sched : ReplaySchedule) (computeElig : Bool)
    (built : SessionId) (ops : List ReplayTransport.Op) (bakes : List (SessionId × Master.Bake))
    (last : SessionId × Master.Bake) : Prop :=
  let t := ReplayTransport.new gt sched built
  let M := (t.buildFrameMaster computeElig).bakeAll computeElig (bakes ++ [last])
  let R := ((t.applyAll ops).reset last.1).buildFrameMaster computeElig
  M.sessionFields = R.sessionFields ∧ M.EligExact computeElig last.1

/-- The patched master is the rebuilt one exactly when no frame of the second session is
stale. -/
theorem patched_is_rebuilt_iff (hfit : OffsetsFit gt sched.events) (computeElig : Bool)
    (built : SessionId) (ops : List ReplayTransport.Op) (bakes : List (SessionId × Master.Bake))
    (last : SessionId × Master.Bake)
    (hcomplete : ∀ pre p post, bakes ++ [last] = pre ++ p :: post →
      (((ReplayTransport.new gt sched built).buildFrameMaster computeElig).bakeAll computeElig
        pre).Completes computeElig p) :
    PatchedIsRebuilt gt sched computeElig built ops bakes last ↔
      ¬Stale gt sched computeElig built last.1 := by
  have ⟨h, hb⟩ : (ReplayTransport.new gt sched built).Laid gt sched ∧ _ :=
    ReplayTransport.new_laid hfit built
  obtain ⟨h', hb'⟩ := ReplayTransport.apply_laid (ReplayTransport.applyAll_laid ops ⟨h, hb⟩)
    (.reset last.1)
  have hmetas := ((ReplayTransport.new gt sched built).applyAll_static ops).2.1
  have htriples := (ReplayTransport.new gt sched built).applyAll_triples ops
  obtain ⟨hiff, hwhole⟩ := patched_fields_iff computeElig h h' hb hb' hmetas htriples
  have hbaked := Master.bakeAll_eq (fun _ => Master.mem_evts) hcomplete
  rw [List.getLast?_concat, Option.map_some, Option.getD_some] at hbaked
  rw [PatchedIsRebuilt]
  simp only [hbaked]
  refine ⟨fun hsame => hiff.mp hsame.1, fun hfresh => ⟨hiff.mpr hfresh, fun e he => ?_⟩⟩
  exact eligExact_build h' hb' e (hwhole (hiff.mpr hfresh) ▸ he)

/-- Two valid messages, the second one behind the split. -/
def splitTape : List UInt8 :=
  0 :: 12 :: 83 :: List.replicate 11 0 ++ 0 :: 12 :: 83 :: List.replicate 11 0

def sessionB : SessionId := SessionId.repeated 66

def splitSchedule : ReplaySchedule where
  events := [⟨1, 0, .packet 1 0 1⟩, ⟨2, 0, .packet 2 1 1⟩]
  sessionSplit := some (1, sessionB)

theorem patched_is_rebuilt_split :
    PatchedIsRebuilt splitTape splitSchedule true ⟨List.replicate 10 65, rfl⟩ []
      [(⟨List.replicate 10 67, rfl⟩, .steps [(1, 1), (2, 5)])]
      (⟨List.replicate 10 68, rfl⟩, .full) := by
  refine (patched_is_rebuilt_iff (OffsetsFit.of_blobLen (by decide)) true _ [] _ _ ?_).mpr ?_
  · intro pre p post heq
    match pre, heq with
    | [], heq =>
        cases heq
        rw [Master.Completes]
        decide +kernel
    | [_], heq =>
        cases heq
        rw [Master.Completes]
        decide +kernel
    | _ :: _ :: _, heq => simp at heq
  · rintro ⟨-, ev, hev, hp, -, hne⟩
    exact hne ((by decide : ∀ ev ∈ splitSchedule.events, splitSchedule.patchable ev.kind = false →
      (splitSchedule.effectiveSession ⟨List.replicate 10 65, rfl⟩ ev.kind =
          ⟨List.replicate 10 65, rfl⟩ ↔
        splitSchedule.effectiveSession ⟨List.replicate 10 68, rfl⟩ ev.kind =
          ⟨List.replicate 10 68, rfl⟩)) ev hev hp)

/-- Built for the second session and reset to another one, the master keeps the steady-ok bit
of the second session's frame. -/
theorem stale_elig : ¬PatchedIsRebuilt splitTape splitSchedule true sessionB [] []
    (⟨List.replicate 10 65, rfl⟩, .full) := by
  intro h
  exact absurd h.1 (by decide +kernel)

end HftProj.Transport
