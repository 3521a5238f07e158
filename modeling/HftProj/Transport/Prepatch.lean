import HftProj.Transport.Fidelity

/-!
# Patching ahead of a reset

Behind the consumer the sessions of the next pass are written site by site. A site is
gated on the last event that refers to its region, so a call leaves every region alone
that is still to be served; what the calls of a pass left over is written by the reset,
and the blob is then the one that a full reset makes.
-/

namespace HftProj.Transport

open HftProj.Lib HftProj.Protocol HftProj.Protocol.Moldudp64 HftProj.Protocol.Packet
open HftProj.Arbitrator

variable {gt : List UInt8} {sched : ReplaySchedule}

/-! ## Gates -/

/-- A site is gated on an event at or behind every event whose region it touches. -/
def Gated (metas : List FrameMeta) (sites : List (ℕ × ℕ)) : Prop :=
  ∀ site ∈ sites, ∀ i m, metas[i]? = some m → m.len ≠ 0 →
    i ≤ site.1 ∨ m.offset + m.len ≤ site.2 ∨ site.2 + 10 ≤ m.offset

theorem asU32_of_lt {n : ℕ} (h : n < 2 ^ 32) : asU32 n = n := Nat.mod_eq_of_lt h

theorem Directory.header_le {frames : List UInt8} {triples : List Triple}
    {events : List SchedEvent} {metas : List FrameMeta}
    (h : Directory gt sched frames triples events metas) {i : ℕ} {ev : SchedEvent}
    {m : FrameMeta} (hi : Lists events metas i ev m) : 10 ≤ m.len := by
  obtain ⟨body, -, hent⟩ := h.lists hi
  have := hent.len
  simp only [HEADER_LEN] at this
  omega

theorem Built.gated {events : List SchedEvent} {b : Build} (h : Built gt sched events b)
    (hcount : events.length ≤ 2 ^ 32) : Gated b.metas (b.sites sched) := by
  intro site hsite i m hm hlen
  have hi : i < events.length := by
    have hlt := (List.getElem?_eq_some_iff.mp hm).1
    rwa [← h.directory.length_eq] at hlt
  have hlist : Lists events b.metas i events[i] m := ⟨List.getElem?_eq_getElem hi, hm, hlen⟩
  have hwide : asU32 i = i := asU32_of_lt (by omega)
  rcases (b.mem_sites sched site).mp hsite with hown | ⟨key, v, hv, -, rfl⟩
  · obtain ⟨j, ev, d, hj, hkey, -, rfl⟩ := (h.own site).mp hown
    rcases h.apart j i ev events[i] d m hj hlist with rfl | ⟨-, hne, -⟩ | hclear
    · exact .inl (by rw [hwide])
    · exact absurd hkey hne
    · have := h.directory.header_le hj
      right
      simp only
      omega
  · obtain ⟨j, ev, d, hj, hkey, hval⟩ := h.shared key v (h.mem_aliasMap.mp hv)
    have hoff : v.off = d.offset := congrArg Prod.fst hval
    have hgate : events[i].kind.aliasKey = some key → i ≤ v.lastEvt := by
      intro hk
      obtain ⟨v', hv', -, hle⟩ := h.known i events[i] m key hlist hk
      rw [h.mem_aliasMap.mp hv] at hv'
      rw [Option.some.inj hv', ← hwide]
      exact hle
    rcases h.apart j i ev events[i] d m hj hlist with rfl | ⟨hk, -, -⟩ | hclear
    · have hev : ev = events[j] := Option.some.inj (hj.event.symm.trans hlist.event)
      exact .inl (hgate (hev ▸ hkey))
    · exact .inl (hgate (hk ▸ hkey))
    · have := h.directory.header_le hj
      right
      simp only
      omega

/-! ## The walk over the patch list -/

namespace ReplayTransport

/-- The blob offsets at which a call of `patch_range` writes a session. -/
def patchSites (t : ReplayTransport) (fromIdx uptoEvt budget : ℕ) : List ℕ :=
  ((t.patchEvts.drop fromIdx).take
    (patchCount uptoEvt budget (t.patchEvts.drop fromIdx))).map Prod.snd

theorem patchRange_frames (t : ReplayTransport) (session : SessionId)
    (fromIdx uptoEvt budget : ℕ) :
    (t.patchRange session fromIdx uptoEvt budget).2.frames =
      writeAll session.1 (t.patchSites fromIdx uptoEvt budget) t.frames :=
  rfl

/-- The walk stops in front of the first site that is not gated below the limit. -/
theorem lt_of_mem_patched {uptoEvt budget : ℕ} {sites : List (ℕ × ℕ)} {site : ℕ × ℕ}
    (h : site ∈ sites.take (patchCount uptoEvt budget sites)) : site.1 < uptoEvt := by
  induction budget generalizing sites with
  | zero => simp [patchCount] at h
  | succ budget ih =>
      cases sites with
      | nil => simp at h
      | cons head sites =>
          simp only [patchCount] at h
          split at h
          · simp at h
          · rename_i hlt
            rcases List.mem_cons.mp (List.take_succ_cons ▸ h) with rfl | htail
            · omega
            · exact ih htail

/-- With the whole budget it reaches every such site of a list in the order of the gates. -/
theorem mem_patched {uptoEvt budget : ℕ} {sites : List (ℕ × ℕ)}
    (hsorted : sites.Pairwise fun a b => a.1 ≤ b.1) (hbudget : sites.length ≤ budget)
    {site : ℕ × ℕ} (hmem : site ∈ sites) (hlt : site.1 < uptoEvt) :
    site ∈ sites.take (patchCount uptoEvt budget sites) := by
  induction sites generalizing budget with
  | nil => cases hmem
  | cons head sites ih =>
      obtain ⟨hhead, htail⟩ := List.pairwise_cons.mp hsorted
      obtain ⟨budget, rfl⟩ : ∃ b, budget = b + 1 := ⟨budget - 1, by
        rw [List.length_cons] at hbudget
        omega⟩
      have hle : head.1 ≤ site.1 := by
        rcases List.mem_cons.mp hmem with rfl | hin
        · exact Nat.le_refl _
        · exact hhead site hin
      rw [patchCount, if_neg (by omega), List.take_succ_cons]
      rcases List.mem_cons.mp hmem with rfl | hin
      · exact List.mem_cons_self
      · exact List.mem_cons_of_mem _ (ih htail (by simpa using hbudget) hin)

/-! ## Calls -/

inductive Call where
  | op (op : Op)
  | resetCursors (session : SessionId)
  | patchRange (session : SessionId) (fromIdx uptoEvt budget : ℕ)
  | resetPrepatched (session : SessionId) (fromIdx : ℕ)

def call (t : ReplayTransport) : Call → ReplayTransport
  | .op op => t.apply op
  | .resetCursors session => t.resetCursors session
  | .patchRange session fromIdx uptoEvt budget => (t.patchRange session fromIdx uptoEvt budget).2
  | .resetPrepatched session fromIdx => t.resetPrepatched session fromIdx

def callAll (t : ReplayTransport) (calls : List Call) : ReplayTransport := calls.foldl call t

/-- No call touches the directory or the patch list. -/
theorem callAll_static (t : ReplayTransport) (calls : List Call) :
    (t.callAll calls).metas = t.metas ∧ (t.callAll calls).patchEvts = t.patchEvts := by
  induction calls generalizing t with
  | nil => exact ⟨rfl, rfl⟩
  | cons c calls ih =>
      have hone : (t.call c).metas = t.metas ∧ (t.call c).patchEvts = t.patchEvts := by
        cases c with
        | op op =>
            cases op with
            | poll maxVt =>
                obtain ⟨eventIdx, virtualClock, batchEvent, heq⟩ := t.pollClamped_frame maxVt
                rw [call, apply, heq]
                exact ⟨rfl, rfl⟩
            | reset session => exact ⟨rfl, rfl⟩
            | setPollCoalesce k => exact ⟨rfl, rfl⟩
            | setClockClamp clamp => exact ⟨rfl, rfl⟩
        | resetCursors session => exact ⟨rfl, rfl⟩
        | patchRange session fromIdx uptoEvt budget => exact ⟨rfl, rfl⟩
        | resetPrepatched session fromIdx => exact ⟨rfl, rfl⟩
      obtain ⟨h₁, h₂⟩ := ih (t.call c)
      exact ⟨h₁.trans hone.1, h₂.trans hone.2⟩

/-- The call writes no byte of a region that an event at or after the limit reads. -/
def Spared (t : ReplayTransport) (fromIdx uptoEvt budget : ℕ) : Prop :=
  ∀ i m, uptoEvt ≤ i → t.metas[i]? = some m →
    ∀ off ∈ t.patchSites fromIdx uptoEvt budget, ∀ p, m.offset ≤ p → p < m.offset + m.len →
      ¬(off ≤ p ∧ p < off + 10)

theorem spared_of_gated {t : ReplayTransport} (h : Gated t.metas t.patchEvts)
    (fromIdx uptoEvt budget : ℕ) : t.Spared fromIdx uptoEvt budget := by
  intro i m hi hm off hoff p hlo hhi hp
  obtain ⟨site, hsite, rfl⟩ := List.mem_map.mp hoff
  have hlt := lt_of_mem_patched hsite
  have hmem := List.mem_of_mem_drop (List.mem_of_mem_take hsite)
  have := h site hmem i m hm (by omega)
  omega

/-! ## Behind the consumer -/

/-- What happens to a transport between two resets. -/
inductive Work where
  | poll (maxVt : Option ℕ)
  | setPollCoalesce (k : ℕ)
  | setClockClamp (clamp : Option ℕ)
  | patch (uptoEvt budget : ℕ)

/-- The work of a pass alone. -/
def serve (t : ReplayTransport) : Work → ReplayTransport
  | .poll maxVt => (t.pollClamped maxVt).1
  | .setPollCoalesce k => t.setPollCoalesce k
  | .setClockClamp clamp => t.setClockClamp clamp
  | .patch _ _ => t

/-- The work of a pass with the sessions of the next one written behind it, each call
resuming where the last one stopped. -/
def prepatch (session : SessionId) (r : ℕ × ReplayTransport) (work : Work) :
    ℕ × ReplayTransport :=
  match work with
  | .patch uptoEvt budget => r.2.patchRange session r.1 uptoEvt budget
  | work => (r.1, r.2.serve work)

/-- The blob with the first sites of the patch list written. -/
def prepatched (t : ReplayTransport) (session : SessionId) (idx : ℕ) : ReplayTransport :=
  { t with frames := writeAll session.1 ((t.patchEvts.take idx).map Prod.snd) t.frames }

theorem releaseLoop_frames (t : ReplayTransport) (frames : List UInt8) (exactPacing : Bool)
    (vclock limitEvt cap fuel evt : ℕ) (out : List (ℕ × FrameMeta)) :
    { t with frames := frames }.releaseLoop exactPacing vclock limitEvt cap fuel evt out =
      t.releaseLoop exactPacing vclock limitEvt cap fuel evt out := by
  induction fuel generalizing evt out with
  | zero => rfl
  | succ fuel ih => simp only [releaseLoop, ih]

theorem releaseChain_frames (t : ReplayTransport) (frames : List UInt8) (limit : Option ℕ)
    (groups e mx : ℕ) :
    { t with frames := frames }.releaseChain limit groups e mx =
      t.releaseChain limit groups e mx := by
  induction groups generalizing e mx with
  | zero => rfl
  | succ groups ih => simp only [releaseChain, ih]

/-- The pacing does not read the blob. -/
theorem pollEvents_frames (t : ReplayTransport) (frames : List UInt8) (maxVt : Option ℕ)
    (cap : ℕ) :
    { t with frames := frames }.pollEvents maxVt cap =
      ({ (t.pollEvents maxVt cap).1 with frames := frames }, (t.pollEvents maxVt cap).2) := by
  simp only [pollEvents, releaseLoop_frames, releaseChain_frames]
  split
  · rfl
  · rfl

theorem serve_frames (t : ReplayTransport) (frames : List UInt8) (work : Work) :
    { t with frames := frames }.serve work = { t.serve work with frames := frames } := by
  cases work with
  | poll maxVt =>
      simp only [serve, pollClamped, pollEvents_frames]
      split
      · rfl
      · split
        · rfl
        · rfl
  | setPollCoalesce k => rfl
  | setClockClamp clamp => rfl
  | patch uptoEvt budget => rfl

theorem serve_static (t : ReplayTransport) (work : Work) :
    (t.serve work).patchEvts = t.patchEvts ∧ (t.serve work).frames = t.frames := by
  cases work with
  | poll maxVt =>
      obtain ⟨eventIdx, virtualClock, batchEvent, heq⟩ := t.pollClamped_frame maxVt
      rw [serve, heq]
      exact ⟨rfl, rfl⟩
  | setPollCoalesce k => exact ⟨rfl, rfl⟩
  | setClockClamp clamp => exact ⟨rfl, rfl⟩
  | patch uptoEvt budget => exact ⟨rfl, rfl⟩

theorem serve_prepatched (t : ReplayTransport) (session : SessionId) (idx : ℕ) (work : Work) :
    (t.prepatched session idx).serve work = (t.serve work).prepatched session idx := by
  obtain ⟨hsites, hframes⟩ := t.serve_static work
  rw [prepatched, serve_frames, prepatched, hframes, ← hsites]

/-- One step keeps the blob written up to the position reached. -/
theorem prepatch_step (t : ReplayTransport) (session : SessionId) (idx : ℕ) (work : Work) :
    ∃ idx', prepatch session (idx, t.prepatched session idx) work =
      (idx', (t.serve work).prepatched session idx') := by
  cases work with
  | patch uptoEvt budget =>
      refine ⟨idx + patchCount uptoEvt budget (t.patchEvts.drop idx), ?_⟩
      simp only [prepatch, patchRange, prepatched, serve, List.take_add, List.map_append,
        writeAll_append]
  | poll maxVt => exact ⟨idx, congrArg (Prod.mk idx) (t.serve_prepatched session idx _)⟩
  | setPollCoalesce k => exact ⟨idx, congrArg (Prod.mk idx) (t.serve_prepatched session idx _)⟩
  | setClockClamp clamp => exact ⟨idx, congrArg (Prod.mk idx) (t.serve_prepatched session idx _)⟩

/-- A pass of work with the next session written behind it. -/
theorem prepatch_run (t : ReplayTransport) (session : SessionId) (idx : ℕ)
    (works : List Work) :
    ∃ idx', works.foldl (prepatch session) (idx, t.prepatched session idx) =
      (idx', (works.foldl serve t).prepatched session idx') := by
  induction works generalizing t idx with
  | nil => exact ⟨idx, rfl⟩
  | cons work works ih =>
      obtain ⟨idx', hstep⟩ := t.prepatch_step session idx work
      rw [List.foldl_cons, List.foldl_cons, hstep]
      exact ih (t.serve work) idx'

/-- The sites left to the reset make up for those already written. -/
theorem resetPrepatched_eq (t : ReplayTransport) (session : SessionId) (idx : ℕ) :
    (t.prepatched session idx).resetPrepatched session idx = t.reset session := by
  have hsplit : writeAll session.1 (t.patchEvts.map Prod.snd) t.frames =
      writeAll session.1 ((t.patchEvts.drop idx).map Prod.snd)
        (writeAll session.1 ((t.patchEvts.take idx).map Prod.snd) t.frames) := by
    rw [← writeAll_append, ← List.map_append, List.take_append_drop]
  rw [reset, patchSessions, resetPrepatched]
  simp only [prepatched, resetCursors, hsplit]

/-- A prepatched reset makes the transport that a full reset makes. -/
theorem prepatch_reset (t : ReplayTransport) (session : SessionId) (works : List Work) :
    let r := works.foldl (prepatch session) (0, t)
    r.2.resetPrepatched session r.1 = (works.foldl serve t).reset session := by
  obtain ⟨idx, hrun⟩ := t.prepatch_run session 0 works
  have hstart : t.prepatched session 0 = t := rfl
  rw [hstart] at hrun
  rw [hrun]
  exact (works.foldl serve t).resetPrepatched_eq session idx

end ReplayTransport

/-- Whatever was called before: no patch touches a region that is still to be served, and a
pass of patches ends in the transport of a full reset. -/
def PrepatchSound (gt : List UInt8) (sched : ReplaySchedule) : Prop :=
  ∀ (session : SessionId) (calls : List ReplayTransport.Call),
    let t := (ReplayTransport.new gt sched session).callAll calls
    (∀ fromIdx uptoEvt budget, t.Spared fromIdx uptoEvt budget) ∧
      ∀ (next : SessionId) (works : List ReplayTransport.Work),
        let r := works.foldl (ReplayTransport.prepatch next) (0, t)
        r.2.resetPrepatched next r.1 = (works.foldl ReplayTransport.serve t).reset next

namespace ReplayTransport

theorem new_directory (gt : List UInt8) (sched : ReplaySchedule) (session : SessionId) :
    (new gt sched session).metas = (Build.renderAll gt sched session 0 sched.events {}).metas ∧
      (new gt sched session).patchEvts =
        (Build.renderAll gt sched session 0 sched.events {}).sites sched :=
  ⟨rfl, rfl⟩

theorem prepatch_sound (hfit : OffsetsFit gt sched.events)
    (hcount : sched.events.length ≤ 2 ^ 32) : PrepatchSound gt sched := by
  intro session calls
  refine ⟨?_, fun next works => prepatch_reset _ next works⟩
  apply spared_of_gated
  obtain ⟨hmetas, hsites⟩ := callAll_static (new gt sched session) calls
  obtain ⟨hnew, hnew'⟩ := new_directory gt sched session
  rw [hmetas, hsites, hnew, hnew']
  have hstart : Built gt sched [] {} := built_start
  exact (hstart.renderAll session hfit rfl).gated hcount

theorem prepatch_sound_resent : PrepatchSound [0, 1, 83] resent :=
  prepatch_sound (.of_blobLen (by decide)) (by decide)

/-! ## A blob of more than 4 GiB -/

theorem Build.sites_sorted (b : Build) (sched : ReplaySchedule) :
    (b.sites sched).Pairwise fun a b => a.1 ≤ b.1 := by
  have htrans : ∀ a b c, siteLe a b = true → siteLe b c = true → siteLe a c = true := by
    intro a b c hab hbc
    simp only [siteLe, Bool.or_eq_true, decide_eq_true_eq, Bool.and_eq_true, beq_iff_eq] at *
    omega
  have htotal : ∀ a b, (siteLe a b || siteLe b a) = true := by
    intro a b
    simp only [siteLe, Bool.or_eq_true, decide_eq_true_eq, Bool.and_eq_true, beq_iff_eq]
    omega
  apply List.Pairwise.imp _ (List.pairwise_mergeSort htrans htotal _)
  intro a b hab
  simp only [siteLe, Bool.or_eq_true, decide_eq_true_eq, Bool.and_eq_true, beq_iff_eq] at hab
  omega

/-- In front of the last event the walk writes the site of the second one, which the offset of
the last region, cut down to 704, has moved into that region. -/
theorem wide_rewritten {n : ℕ} (hn : n = 2863313) {b : Build} (h : Widening n b) :
    (∃ m, b.metas[n - 1]? = some m ∧ m.offset = 704 ∧ m.len = 1500) ∧
      1500 ∈ ((b.sites wide).take (patchCount (n - 1) (b.sites wide).length
        (b.sites wide))).map Prod.snd := by
  constructor
  · have hlt : n - 1 < b.metas.length := by
      rw [h.entries]
      omega
    have hm := List.getElem?_eq_getElem hlt
    obtain ⟨hoff, hlen⟩ := h.listed _ _ hm
    have hwrap : asU32 (1500 * (n - 1)) = 704 := by
      rw [hn]
      norm_num [asU32]
    exact ⟨_, hm, hoff.trans hwrap, hlen⟩
  · obtain ⟨e, he, hevt, hoff⟩ := h.registered 1 (by omega)
    have hsite : (e.2.lastEvt, e.2.off) ∈ b.sites wide :=
      (b.mem_sites wide _).mpr (.inr ⟨e.1, e.2, he, rfl, rfl⟩)
    have hgate : e.2.lastEvt < n - 1 := by
      rw [hevt, asU32_of_lt (by norm_num)]
      omega
    have hat : e.2.off = 1500 := by
      rw [hoff]
      norm_num [asU32]
    exact List.mem_map.mpr ⟨_, mem_patched (Build.sites_sorted b wide) (Nat.le_refl _) hsite hgate,
      hat⟩

theorem PrepatchSound.spares (h : PrepatchSound gt sched) (session : SessionId) {b : Build}
    (hb : Build.renderAll gt sched session 0 sched.events {} = b) {uptoEvt budget i : ℕ}
    {m : FrameMeta} (hi : uptoEvt ≤ i) (hm : b.metas[i]? = some m) {off : ℕ}
    (hoff : off ∈ ((b.sites sched).take
      (patchCount uptoEvt budget (b.sites sched))).map Prod.snd) :
    ¬(m.offset ≤ off ∧ off < m.offset + m.len) := by
  rintro ⟨hlo, hhi⟩
  obtain ⟨hnew, hnew'⟩ := new_directory gt sched session
  have hspared := (h session []).1 0 uptoEvt budget i m hi
  rw [patchSites, callAll, List.foldl_nil, hnew, hnew', hb, List.drop_zero] at hspared
  exact hspared hm off hoff off hlo hhi ⟨Nat.le_refl _, by omega⟩

/-- Patching up to the last event writes into the region it is still to be served from. -/
theorem wide_unsound : ¬PrepatchSound wideMsg wide := by
  intro hsound
  have hcount : wideCount = 2863313 := by rw [wideCount]
  obtain ⟨⟨m, hm, hoff, hlen⟩, hmem⟩ :=
    wide_rewritten hcount (wide_built ⟨List.replicate 10 255, rfl⟩)
  exact PrepatchSound.spares hsound _ rfl (Nat.le_refl _) hm hmem ⟨by omega, by omega⟩

end ReplayTransport

end HftProj.Transport
