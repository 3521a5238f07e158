import HftProj.Testkit.ScheduleCoverage
import HftProj.Arbitrator.Generation
import HftProj.Arbitrator.Requests

/-!
# Heartbeats

Every heartbeat and every end of session of a schedule announces the number behind the last
message, the rolling heartbeats too, which stand among the packets. Without delays a packet is
released at its base time, so they announce what has been sent exactly when the last packet is
released no later than the first of them. All times are words.
-/

namespace HftProj.Testkit.ReplayBuilder

open HftProj.Lib HftProj.Protocol.Moldudp64 HftProj.Transport
open HftProj.Arbitrator (FeedId Sequencer SinkCall)

/-! ## What is announced -/

/-- The next sequence number that an event announces. -/
def announced (e : SchedEvent) : Option UInt64 :=
  match e.kind with
  | .packet .. => none
  | .heartbeat nextSeq | .endOfSession nextSeq => some nextSeq

/-- The highest sequence number that an event carries. -/
def highest (e : SchedEvent) : Option ℕ :=
  match e.kind with
  | .packet firstSeq _ count => some (firstSeq.toNat + count.toNat - 1)
  | .heartbeat _ | .endOfSession _ => none

/-- Up to a time a number at least one less than the given one has been released. -/
def Reached (events : List SchedEvent) (vt : UInt64) (next : ℕ) : Prop :=
  ∃ p ∈ events, ∃ seq, highest p = some seq ∧ p.releaseVt ≤ vt ∧ next ≤ seq + 1

/-- Nothing is announced that has not been released. -/
def Lawful (events : List SchedEvent) : Prop :=
  ∀ e ∈ events, ∀ next, announced e = some next → Reached events e.releaseVt next.toNat

/-- A sequencer has taken everything released up to a time. -/
def Taken (events : List SchedEvent) (vt : UInt64) (s : Sequencer) : Prop :=
  ∀ p ∈ events, ∀ seq, highest p = some seq → p.releaseVt ≤ vt → seq < s.w

/-- No frame of an announcement opens a gap at a sequencer that has taken what was released. -/
def Gapless (gt : Slice) (sched : ReplaySchedule) : Prop :=
  ∀ e ∈ sched.events, ∀ next, announced e = some next → ∀ session frame,
    frameOf gt.1 sched session e.kind = some frame → ∀ s, Taken sched.events e.releaseVt s →
      ∀ call ∈ (s.ingest frame e.feed e.releaseVt.toNat).2, call.isGapOpened = false

section Sequencing

variable {gt : Slice} {sched : ReplaySchedule}

/-- An announcement has a frame of its own, a header that is not data's. -/
theorem frameOf_announced {e : SchedEvent} {next : UInt64} (h : announced e = some next)
    (session : SessionId) :
    ∃ frame hdr, frameOf gt.1 sched session e.kind = some frame ∧ parseHeader frame = .ok hdr ∧
      hdr.session = sched.effectiveSession session e.kind ∧ hdr.seq = next.toNat ∧
      hdr.count = e.kind.wireCount ∧
      (hdr.count = HEARTBEAT_COUNT ∨ hdr.count = EOS_COUNT) := by
  have hseq := next.toNat_lt
  have hheader (own : SessionId) (count : ℕ) (hcount : count < 2 ^ 16) :
      parseHeader (own.1 ++ (toBeBytes 8 next.toNat ++ (toBeBytes 2 count ++ []))) =
        .ok ⟨own, next.toNat, count⟩ := by
    simpa only [headerBytes, List.append_assoc] using parseHeader_headerBytes own hseq hcount []
  cases hkind : e.kind with
  | packet => simp only [announced, hkind, reduceCtorEq] at h
  | heartbeat nextSeq =>
      simp only [announced, hkind, Option.some.injEq] at h
      subst h
      exact ⟨_, _, rfl, hheader _ HEARTBEAT_COUNT (by decide), rfl, rfl, rfl, .inl rfl⟩
  | endOfSession nextSeq =>
      simp only [announced, hkind, Option.some.injEq] at h
      subst h
      exact ⟨_, _, rfl, hheader _ EOS_COUNT (by decide), rfl, rfl, rfl, .inr rfl⟩

theorem dispatched_quiet {next : SessionId} {s t : Sequencer} {calls : List SinkCall}
    (h : Sequencer.Dispatched next s calls t) :
    t.w = s.w ∧ ∀ call ∈ calls, call.isGapOpened = false := by
  cases h with
  | same _ hcore => exact ⟨Sequencer.w_of_core hcore, nofun⟩
  | adopt _ hcore =>
      have hw := Sequencer.w_of_core hcore
      exact ⟨hw, nofun⟩
  | boundary _ _ hcore =>
      have hw := Sequencer.w_of_core hcore
      refine ⟨hw, ?_⟩
      intro call hcall
      rw [List.mem_singleton.mp hcall]
      rfl

theorem handleHeartbeat_behind {s : Sequencer} {seq : ℕ} (hw : seq ≤ s.w) (nowNs : ℕ) :
    (s.handleHeartbeat seq nowNs).2 = [] := by
  have hbehind : ¬ s.w < seq := Nat.not_lt.mpr hw
  unfold Sequencer.handleHeartbeat
  dsimp only [Sequencer.count]
  split_ifs
  · rfl
  · rfl
  · rfl
  · rfl

/-- An announcement that is not ahead of the watermark opens no gap. -/
theorem ingest_announced {frame : List UInt8} {hdr : Header} (hhdr : parseHeader frame = .ok hdr)
    (hcount : hdr.count = HEARTBEAT_COUNT ∨ hdr.count = EOS_COUNT) {s : Sequencer}
    (hw : hdr.seq ≤ s.w) (feed : FeedId) (nowNs : ℕ) :
    ∀ call ∈ (s.ingest frame feed nowNs).2, call.isGapOpened = false := by
  have hlen : ¬ frame.length < HEADER_LEN := Nat.not_lt.mpr (parseHeader_ok hhdr).1
  by_cases hdead : s.state = .dead
  · have hstate : (s.countPacket frame feed).state = .dead := hdead
    rw [Sequencer.ingest, if_neg hlen, hhdr]
    simp only [hstate, if_true]
    exact nofun
  · rw [Sequencer.ingest_eq hdead hhdr, Traced.andThen_snd]
    have hsame : (s.countPacket frame feed).w = s.w := rfl
    obtain ⟨hlevel, hquiet⟩ := dispatched_quiet
      ((s.countPacket frame feed).dispatchSession_dispatched hdr.session)
    generalize (s.countPacket frame feed).dispatchSession hdr.session = r at hlevel hquiet ⊢
    intro call hcall
    rcases List.mem_append.mp hcall with hcall | hcall
    · exact hquiet call hcall
    · rw [Sequencer.ingestKind] at hcall
      split at hcall
      · rw [handleHeartbeat_behind (by omega)] at hcall
        cases hcall
      · rename_i hnot
        rw [if_pos (hcount.resolve_left hnot)] at hcall
        rcases Sequencer.handleEos_calls _ hdr with hcalls | hcalls
        · rw [hcalls] at hcall
          cases hcall
        · rw [hcalls] at hcall
          rw [List.mem_singleton.mp hcall]
          rfl

/-- What announces nothing unsent opens no gap. -/
theorem Lawful.gapless (h : Lawful sched.events) : Gapless gt sched := by
  intro e he next hnext session frame hframe s htaken
  obtain ⟨frame', hdr, hframe', hhdr, -, hseq, -, hcount⟩ :=
    @frameOf_announced gt sched e next hnext session
  obtain rfl := Option.some.inj (hframe'.symm.trans hframe)
  obtain ⟨p, hp, seq, hseq', hvt, hle⟩ := h e he next hnext
  have hw := htaken p hp seq hseq' hvt
  exact ingest_announced hhdr hcount (by omega) e.feed _

end Sequencing

/-! ## What is released, and when -/

/-- When a packet is released without a delay. -/
def baseVt (cfg : ReplayConfig) (pkt : RawPacket) : UInt64 :=
  UInt64.ofNat pkt.firstMsg * nsPerMsg cfg

/-- When the last packet is released. -/
def lastVt (cfg : ReplayConfig) (pkts : List RawPacket) : UInt64 :=
  (pkts.getLast?.map (baseVt cfg)).getD 0

/-- The latest release, which is the last packet's unless the clock wraps. -/
def latestVt (cfg : ReplayConfig) (pkts : List RawPacket) : UInt64 :=
  (pkts.map (baseVt cfg)).foldl max 0

/-- Both feeds are on, coverage is guaranteed and nothing is delayed. -/
structure Undelayed (cfg : ReplayConfig) : Prop where
  covering : Covering cfg
  delay : ∀ feed, cfg.delay feed = .none

theorem max_vt_le (a b c : UInt64) : max a b ≤ c ↔ a ≤ c ∧ b ≤ c := by
  have hmax : max a b = if a ≤ b then b else a := rfl
  rw [hmax]
  simp only [UInt64.le_iff_toNat_le]
  split <;> omega

theorem foldl_max_le (vts : List UInt64) (b c : UInt64) :
    vts.foldl max b ≤ c ↔ b ≤ c ∧ ∀ vt ∈ vts, vt ≤ c := by
  induction vts generalizing b with
  | nil => exact ⟨fun h => ⟨h, nofun⟩, fun h => h.1⟩
  | cons vt vts ih =>
      rw [List.foldl_cons, ih, max_vt_le, List.forall_mem_cons, and_assoc]

/-- The latest time depends on which times there are. -/
theorem foldl_max_congr {xs ys : List UInt64} (h : ∀ vt, vt ∈ xs ↔ vt ∈ ys) :
    xs.foldl max 0 = ys.foldl max 0 := by
  apply UInt64.le_antisymm
  · rw [foldl_max_le]
    refine ⟨UInt64.zero_le, fun vt hvt => ?_⟩
    exact ((foldl_max_le ys 0 _).mp (UInt64.le_refl _)).2 vt ((h vt).mp hvt)
  · rw [foldl_max_le]
    refine ⟨UInt64.zero_le, fun vt hvt => ?_⟩
    exact ((foldl_max_le xs 0 _).mp (UInt64.le_refl _)).2 vt ((h vt).mpr hvt)

theorem forall₂_left {α β : Type*} {R : α → β → Prop} {xs : List α} {ys : List β}
    (h : List.Forall₂ R xs ys) {x : α} (hx : x ∈ xs) : ∃ y ∈ ys, R x y := by
  induction h with
  | nil => cases hx
  | cons hR _ ih =>
      rcases List.mem_cons.mp hx with rfl | hx
      · exact ⟨_, List.mem_cons_self .., hR⟩
      · obtain ⟨y, hy, hxy⟩ := ih hx
        exact ⟨y, List.mem_cons_of_mem _ hy, hxy⟩

section Released

variable {gt : Slice} {cfg : ReplayConfig} {pkts : List RawPacket} {prngA : SplitMix64}

/-- The events of undelayed packets: of each packet one at least, at its base time. -/
theorem mem_packetEvents (h : Undelayed cfg) (hpkts : packets cfg gt = some (pkts, prngA)) :
    (∀ e ∈ packetEvents cfg pkts prngA, ∃ pkt ∈ pkts,
        e.kind = packetKind cfg pkt ∧ e.releaseVt = baseVt cfg pkt) ∧
      ∀ pkt ∈ pkts, ∃ e ∈ packetEvents cfg pkts prngA,
        e.kind = packetKind cfg pkt ∧ e.releaseVt = baseVt cfg pkt := by
  obtain ⟨deliveries, hall, hevents⟩ := packetEvents_spec hpkts
  rw [hevents]
  constructor
  · intro e he
    obtain ⟨events, hmem, he⟩ := List.mem_flatten.mp he
    obtain ⟨pkt, hpkt, feeds, vt, -, htime, -, rfl⟩ := forall₂_right hall hmem
    obtain ⟨feed, -, rfl⟩ := List.mem_map.mp he
    exact ⟨pkt, hpkt, rfl, htime h.delay feed⟩
  · intro pkt hpkt
    obtain ⟨events, hmem, feeds, vt, -, htime, hsome, rfl⟩ := forall₂_left hall hpkt
    obtain ⟨feed, feeds', rfl⟩ := List.exists_cons_of_ne_nil (hsome h.covering)
    refine ⟨_, List.mem_flatten.mpr ⟨_, hmem, List.mem_cons_self ..⟩, rfl, htime h.delay feed⟩

theorem finalVt_packetEvents (h : Undelayed cfg) (hpkts : packets cfg gt = some (pkts, prngA)) :
    finalVt (packetEvents cfg pkts prngA) = latestVt cfg pkts := by
  obtain ⟨hof, hall⟩ := mem_packetEvents h hpkts
  apply foldl_max_congr
  intro vt
  rw [List.mem_map, List.mem_map]
  constructor
  · rintro ⟨e, he, rfl⟩
    obtain ⟨pkt, hpkt, -, hvt⟩ := hof e he
    exact ⟨pkt, hpkt, hvt.symm⟩
  · rintro ⟨pkt, hpkt, rfl⟩
    obtain ⟨e, he, -, hvt⟩ := hall pkt hpkt
    exact ⟨e, he, hvt⟩

/-- The last packet starts last, and only it reaches the end. -/
theorem Tiled.last {first last : ℕ} (h : Tiled last first pkts) (hne : pkts ≠ []) :
    ∃ q, pkts.getLast? = some q ∧ q ∈ pkts ∧ q.firstMsg + q.count = last ∧
      ∀ p ∈ pkts, p.firstMsg ≤ q.firstMsg ∧
        (last ≤ p.firstMsg + p.count → p.firstMsg = q.firstMsg) := by
  induction pkts generalizing first with
  | nil => exact absurd rfl hne
  | cons p pkts ih =>
      obtain ⟨rfl, -, -, hrest⟩ := h
      cases pkts with
      | nil =>
          refine ⟨p, rfl, List.mem_cons_self .., hrest, ?_⟩
          intro q hq
          rw [List.mem_singleton.mp hq]
          exact ⟨Nat.le_refl _, fun _ => rfl⟩
      | cons p' pkts =>
          obtain ⟨q, hlast, hq, hend, hall⟩ := ih hrest (List.cons_ne_nil _ _)
          refine ⟨q, hlast, List.mem_cons_of_mem _ hq, hend, ?_⟩
          intro r hr
          rcases List.mem_cons.mp hr with rfl | hr
          · have hnext := hrest.mem (List.mem_cons_self ..)
            have hlater := hall p' (List.mem_cons_self ..)
            omega
          · exact hall r hr

theorem highest_packet (hsplit : cfg.sessionChangeAtMsg = none) {pkt : RawPacket}
    (hpos : 0 < pkt.count) (hlt : pkt.count < 2 ^ 16) (hfirst : pkt.firstMsg < 2 ^ 63)
    {e : SchedEvent} (he : e.kind = packetKind cfg pkt) :
    highest e = some (pkt.firstMsg + pkt.count) := by
  have hone : (1 : UInt64).toNat = 1 := rfl
  have hcast : (UInt64.ofNat pkt.firstMsg).toNat = pkt.firstMsg :=
    UInt64.toNat_ofNat_of_lt' (hfirst.trans (by decide))
  simp only [highest, he, packetKind, packetFirstSeq, hsplit, UInt64.toNat_add, hcast, hone,
    UInt16.toNat_ofNat_of_lt' hlt, Option.some.injEq]
  omega

/-- All has been released from the last packet's base time on. -/
theorem reached_iff (h : Undelayed cfg) (hsplit : cfg.sessionChangeAtMsg = none)
    (hpkts : packets cfg gt = some (pkts, prngA))
    (hne : lengths gt ≠ []) (vt : UInt64) :
    Reached (packetEvents cfg pkts prngA) vt ((lengths gt).length + 1) ↔ lastVt cfg pkts ≤ vt := by
  have htiled := packets_tiled hpkts
  have hmany := lengths_length_lt gt
  have hsome : pkts ≠ [] := by
    intro hnil
    rw [hnil] at htiled
    exact hne (List.length_eq_zero_iff.mp (Eq.symm htiled))
  obtain ⟨hof, hall⟩ := mem_packetEvents h hpkts
  obtain ⟨q, hlast, hq, hend, huniq⟩ := htiled.last hsome
  have hvt : lastVt cfg pkts = baseVt cfg q := by rw [lastVt, hlast, Option.map_some, Option.getD_some]
  have hhigh {pkt : RawPacket} (hpkt : pkt ∈ pkts) {e : SchedEvent}
      (he : e.kind = packetKind cfg pkt) : highest e = some (pkt.firstMsg + pkt.count) := by
    obtain ⟨-, hpos, hlt, hle⟩ := htiled.mem hpkt
    exact highest_packet hsplit hpos hlt (by omega) he
  rw [hvt]
  constructor
  · rintro ⟨e, he, seq, hseq, htime, hle⟩
    obtain ⟨pkt, hpkt, hkind, hbase⟩ := hof e he
    obtain rfl : pkt.firstMsg + pkt.count = seq :=
      Option.some.inj ((hhigh hpkt hkind).symm.trans hseq)
    rw [baseVt, ← (huniq pkt hpkt).2 (by omega), ← baseVt, ← hbase]
    exact htime
  · intro htime
    obtain ⟨e, he, hkind, hbase⟩ := hall q hq
    exact ⟨e, he, _, hhigh hq hkind, hbase ▸ htime, by omega⟩

end Released

/-! ## When the announcements are due -/

/-- The times of what ends a feed. -/
def endVts (rollingAt : List UInt64) (final : UInt64) : List UInt64 :=
  rollingAt ++ terminalVt final :: (List.range 5).map (eosVt final)

/-- The last packet is released no later than any announcement: than the rolling heartbeats up to
the first multiple of the interval that reaches the latest release, and than the terminal ones. -/
def InStep (cfg : ReplayConfig) (pkts : List RawPacket) : Prop :=
  (cfg.heartbeatIntervalNs = 0 ∨ ∃ n : ℕ, 0 < n ∧
      latestVt cfg pkts ≤ UInt64.ofNat n * cfg.heartbeatIntervalNs ∧
      ∀ k, 0 < k → k < n → lastVt cfg pkts ≤ UInt64.ofNat k * cfg.heartbeatIntervalNs) ∧
    lastVt cfg pkts ≤ terminalVt (latestVt cfg pkts) ∧
      ∀ step < 5, lastVt cfg pkts ≤ eosVt (latestVt cfg pkts) step

theorem rolling_late_iff (interval final last : UInt64) :
    (∃ rollingAt, rolling interval final = some rollingAt ∧ ∀ vt ∈ rollingAt, last ≤ vt) ↔
      interval = 0 ∨ ∃ n : ℕ, 0 < n ∧ final ≤ UInt64.ofNat n * interval ∧
        ∀ k, 0 < k → k < n → last ≤ UInt64.ofNat k * interval := by
  rcases eq_or_ne interval 0 with rfl | hne
  · exact iff_of_true ⟨[], rfl, nofun⟩ (.inl rfl)
  have hpos : 0 < interval := UInt64.pos_iff_ne_zero.mpr hne
  rw [or_iff_right hne, rolling, if_pos hpos]
  constructor
  · rintro ⟨rollingAt, hrolling, hlate⟩
    obtain ⟨n, -, -, hend, rfl⟩ := (rollingVts_some _ _ _).mp hrolling
    rw [times_ofNat] at hend
    refine ⟨n + 1, Nat.succ_pos n, UInt64.not_lt.mp hend, ?_⟩
    intro k hk hlt
    obtain ⟨k, rfl⟩ := Nat.exists_eq_succ_of_ne_zero hk.ne'
    rw [Nat.succ_eq_add_one, ← times_ofNat]
    exact hlate _ (List.mem_map_of_mem (List.mem_range.mpr (Nat.lt_of_succ_lt_succ hlt)))
  · rintro ⟨n, hn, hreach, hlate⟩
    cases hrolling : rollingVts interval final (2 ^ 64) interval with
    | none =>
        have hnone : rolling interval final = none := by rw [rolling, if_pos hpos, hrolling]
        exact absurd (rolling_none.mp hnone).2 (fun h => UInt64.not_lt.mpr hreach (h _))
    | some rollingAt =>
        obtain ⟨m, -, hbefore, -, rfl⟩ := (rollingVts_some _ _ _).mp hrolling
        refine ⟨_, rfl, ?_⟩
        intro vt hvt
        obtain ⟨k, hk, rfl⟩ := List.mem_map.mp hvt
        have hk := List.mem_range.mp hk
        -- The loop has ended before the multiple that reaches the end.
        have hmn : m < n := by
          by_contra hge
          have hlt := hbefore (n - 1) (by omega)
          rw [times_ofNat, Nat.sub_add_cancel hn] at hlt
          exact UInt64.not_lt.mpr hreach hlt
        rw [times_ofNat]
        exact hlate (k + 1) (Nat.succ_pos k) (by omega)

section Due

variable {gt : Slice} {cfg : ReplayConfig} {pkts : List RawPacket} {prngA : SplitMix64}
  {rollingAt : List UInt64} {final nextSeq : UInt64}

theorem mem_terminate {feed : FeedId} {e : SchedEvent}
    (he : e ∈ terminate rollingAt final nextSeq feed) :
    announced e = some nextSeq ∧ highest e = none ∧ e.releaseVt ∈ endVts rollingAt final := by
  rw [terminate, List.mem_append, List.mem_cons] at he
  rw [endVts, List.mem_append, List.mem_cons]
  rcases he with he | rfl | he
  · obtain ⟨vt, hvt, rfl⟩ := List.mem_map.mp he
    exact ⟨rfl, rfl, .inl hvt⟩
  · exact ⟨rfl, rfl, .inr (.inl rfl)⟩
  · obtain ⟨step, hstep, rfl⟩ := List.mem_map.mp he
    exact ⟨rfl, rfl, .inr (.inr (List.mem_map_of_mem hstep))⟩

variable (rollingAt final nextSeq) in
theorem terminate_times (feed : FeedId) :
    (terminate rollingAt final nextSeq feed).map SchedEvent.releaseVt = endVts rollingAt final := by
  rw [terminate, endVts, List.map_append, List.map_cons, List.map_map, List.map_map]
  simp only [Function.comp_def, List.map_id']

variable (rollingAt final nextSeq) in
/-- What ends the feeds announces the number behind the last message at each of its times. -/
theorem mem_terminals (h : Covering cfg) :
    (∀ e ∈ terminals cfg rollingAt final nextSeq, announced e = some nextSeq ∧ highest e = none ∧
        e.releaseVt ∈ endVts rollingAt final) ∧
      ∀ vt ∈ endVts rollingAt final, ∃ e ∈ terminals cfg rollingAt final nextSeq,
        announced e = some nextSeq ∧ e.releaseVt = vt := by
  constructor
  · intro e he
    obtain ⟨feed, -, he⟩ := List.mem_flatMap.mp he
    split at he
    · exact mem_terminate he
    · cases he
  · intro vt hvt
    rw [← terminate_times rollingAt final nextSeq 0, List.mem_map] at hvt
    obtain ⟨e, he, rfl⟩ := hvt
    refine ⟨e, ?_, (mem_terminate he).1, rfl⟩
    rw [terminals, List.mem_flatMap]
    refine ⟨0, List.mem_cons_self .., ?_⟩
    rw [if_pos h.feedA]
    exact he

theorem finalNextSeq_toNat (hsplit : cfg.sessionChangeAtMsg = none) (gt : Slice) :
    (finalNextSeq cfg (UInt64.ofNat (lengths gt).length)).toNat = (lengths gt).length + 1 := by
  have hmany := lengths_length_lt gt
  have hone : (1 : UInt64).toNat = 1 := rfl
  rw [finalNextSeq, hsplit]
  simp only [UInt64.toNat_add, hone]
  rw [UInt64.toNat_ofNat_of_lt' (hmany.trans (by decide))]
  omega

/-- The announcements are lawful when none of them is before the last packet. -/
theorem lawful_iff (h : Undelayed cfg) (hsplit : cfg.sessionChangeAtMsg = none)
    (hpkts : packets cfg gt = some (pkts, prngA))
    (hne : lengths gt ≠ []) {events : List SchedEvent}
    (hperm : events.Perm (packetEvents cfg pkts prngA ++
      terminals cfg rollingAt final (finalNextSeq cfg (UInt64.ofNat (lengths gt).length)))) :
    Lawful events ↔ ∀ vt ∈ endVts rollingAt final, lastVt cfg pkts ≤ vt := by
  obtain ⟨hends, htimes⟩ := mem_terminals rollingAt final
    (finalNextSeq cfg (UInt64.ofNat (lengths gt).length)) h.covering
  have hreached (vt : UInt64) : Reached events vt ((lengths gt).length + 1) ↔
      lastVt cfg pkts ≤ vt := by
    rw [← reached_iff h hsplit hpkts hne]
    constructor
    · rintro ⟨p, hp, seq, hseq, hrest⟩
      rcases List.mem_append.mp (hperm.mem_iff.mp hp) with hp | hp
      · exact ⟨p, hp, seq, hseq, hrest⟩
      · rw [(hends p hp).2.1] at hseq
        cases hseq
    · rintro ⟨p, hp, hrest⟩
      exact ⟨p, hperm.mem_iff.mpr (List.mem_append_left _ hp), hrest⟩
  have hnext := finalNextSeq_toNat hsplit gt
  constructor
  · intro hlawful vt hvt
    obtain ⟨e, he, hann, rfl⟩ := htimes vt hvt
    have hreach := hlawful e (hperm.mem_iff.mpr (List.mem_append_right _ he)) _ hann
    rwa [hnext, hreached] at hreach
  · intro hlate e he next hann
    rcases List.mem_append.mp (hperm.mem_iff.mp he) with he | he
    · obtain ⟨pkt, -, hkind, -⟩ := (mem_packetEvents h hpkts).1 e he
      simp only [announced, hkind, packetKind, reduceCtorEq] at hann
    · obtain ⟨hann', -, hvt⟩ := hends e he
      obtain rfl := Option.some.inj (hann'.symm.trans hann)
      rw [hnext, hreached]
      exact hlate _ hvt

/-- A schedule is built and lawful exactly when the announcements are in step. -/
theorem built_lawful_iff (h : Undelayed cfg) (hsplit : cfg.sessionChangeAtMsg = none)
    (hpkts : packets cfg gt = some (pkts, prngA)) :
    (∃ sched, buildSchedule gt cfg = some sched ∧ Lawful sched.events) ↔ InStep cfg pkts := by
  rcases eq_or_ne (lengths gt) [] with hnil | hne
  · obtain rfl : pkts = [] := by
      have htiled := packets_tiled hpkts
      rw [hnil] at htiled
      cases pkts with
      | nil => rfl
      | cons p pkts =>
          obtain ⟨-, hpos, -, hrest⟩ := htiled
          have hle := hrest.partition.2
          rw [List.length_nil] at hle
          omega
    refine iff_of_true ⟨_, buildSchedule_nil hnil, nofun⟩ ⟨.inr ⟨1, Nat.one_pos, ?_, ?_⟩, ?_, ?_⟩
    · exact UInt64.zero_le
    · intro k _ _
      exact UInt64.zero_le
    · exact UInt64.zero_le
    · intro step _
      exact UInt64.zero_le
  · rw [h.covering.build hne hpkts, finalVt_packetEvents h hpkts, InStep, ← rolling_late_iff]
    constructor
    · rintro ⟨sched, hsched, hlawful⟩
      obtain ⟨rollingAt, hrolling, rfl⟩ := Option.map_eq_some_iff.mp hsched
      have hall := (lawful_iff h hsplit hpkts hne (List.mergeSort_perm _ _)).mp hlawful
      simp only [endVts, List.forall_mem_append, List.forall_mem_cons, List.forall_mem_map,
        List.mem_range] at hall
      exact ⟨⟨rollingAt, hrolling, hall.1⟩, hall.2⟩
    · rintro ⟨⟨rollingAt, hrolling, hlate⟩, hends⟩
      refine ⟨_, Option.map_eq_some_iff.mpr ⟨rollingAt, hrolling, rfl⟩, ?_⟩
      apply (lawful_iff h hsplit hpkts hne (List.mergeSort_perm _ _)).mpr
      simp only [endVts, List.forall_mem_append, List.forall_mem_cons, List.forall_mem_map,
        List.mem_range]
      exact ⟨hlate, hends⟩

end Due

/-- The announcements in step are no earlier than one interval after the last packet. -/
theorem InStep.interval {cfg : ReplayConfig} {pkts : List RawPacket} (h : InStep cfg pkts)
    (hle : lastVt cfg pkts ≤ latestVt cfg pkts) :
    cfg.heartbeatIntervalNs = 0 ∨ lastVt cfg pkts ≤ cfg.heartbeatIntervalNs := by
  rcases h.1 with hzero | ⟨n, hn, hreach, hlate⟩
  · exact .inl hzero
  · right
    have hone : UInt64.ofNat 1 * cfg.heartbeatIntervalNs = cfg.heartbeatIntervalNs :=
      UInt64.one_mul _
    rcases Nat.lt_or_ge 1 n with hmany | hfew
    · exact hone ▸ hlate 1 Nat.one_pos hmany
    · obtain rfl : n = 1 := by omega
      exact UInt64.le_trans hle (hone ▸ hreach)

section Unwrapped

variable {gt : Slice} {cfg : ReplayConfig} {pkts : List RawPacket} {prngA : SplitMix64}

/-- The clock does not wrap before the last end of session. -/
def Unwrapped (gt : Slice) (cfg : ReplayConfig) : Prop :=
  (lengths gt).length * (nsPerMsg cfg).toNat + 90001000 < 2 ^ 64

theorem baseVt_toNat (hpkts : packets cfg gt = some (pkts, prngA)) (hclock : Unwrapped gt cfg)
    {p : RawPacket} (hp : p ∈ pkts) :
    (baseVt cfg p).toNat = p.firstMsg * (nsPerMsg cfg).toNat := by
  have hmany := lengths_length_lt gt
  have hle := ((packets_tiled hpkts).mem hp).2.2.2
  have hmul := Nat.mul_le_mul_right (nsPerMsg cfg).toNat (Nat.le_of_add_right_le hle)
  rw [Unwrapped] at hclock
  rw [baseVt, UInt64.toNat_mul, UInt64.toNat_ofNat_of_lt' (by simp only [UInt64.size]; omega)]
  exact Nat.mod_eq_of_lt (by omega)

/-- The last packet is the latest. -/
theorem latestVt_eq (hpkts : packets cfg gt = some (pkts, prngA)) (hclock : Unwrapped gt cfg) :
    latestVt cfg pkts = lastVt cfg pkts ∧ (latestVt cfg pkts).toNat + 90001000 < 2 ^ 64 := by
  have hroom := hclock
  rw [Unwrapped] at hroom
  rcases eq_or_ne pkts [] with rfl | hne
  · have hzero : (latestVt cfg []).toNat = 0 := rfl
    exact ⟨rfl, by omega⟩
  obtain ⟨q, hlast, hq, hend, hall⟩ := (packets_tiled hpkts).last hne
  have hbound : q.firstMsg ≤ (lengths gt).length := Nat.le_of_add_right_le hend.le
  have hmul := Nat.mul_le_mul_right (nsPerMsg cfg).toNat hbound
  have hlatest : latestVt cfg pkts = baseVt cfg q := by
    apply UInt64.le_antisymm
    · rw [latestVt, foldl_max_le, List.forall_mem_map]
      refine ⟨UInt64.zero_le, fun p hp => ?_⟩
      rw [UInt64.le_iff_toNat_le, baseVt_toNat hpkts hclock hp, baseVt_toNat hpkts hclock hq]
      exact Nat.mul_le_mul_right _ (hall p hp).1
    · exact ((foldl_max_le _ _ _).mp (UInt64.le_refl _)).2 _ (List.mem_map_of_mem hq)
  rw [hlatest, baseVt_toNat hpkts hclock hq]
  refine ⟨?_, by omega⟩
  rw [lastVt, hlast, Option.map_some, Option.getD_some]

/-- What ends a feed comes behind the latest release. -/
theorem lt_endVts {final : UInt64} (hroom : final.toNat + 90001000 < 2 ^ 64) :
    ∀ vt ∈ endVts [] final, final < vt := by
  have hterminal : (terminalVt final).toNat = final.toNat + 1000 := by
    have hconst : (1000 : UInt64).toNat = 1000 := rfl
    rw [terminalVt, UInt64.toNat_add, hconst]
    exact Nat.mod_eq_of_lt (by omega)
  rw [endVts, List.nil_append, List.forall_mem_cons, List.forall_mem_map]
  constructor
  · rw [UInt64.lt_iff_toNat_lt, hterminal]
    omega
  · intro step hstep
    have hlt := List.mem_range.mp hstep
    have hlead : (50000000 : UInt64).toNat = 50000000 := rfl
    have hten : (10000000 : UInt64).toNat = 10000000 := rfl
    have hsmall : step * 10000000 % 2 ^ 64 = step * 10000000 := Nat.mod_eq_of_lt (by omega)
    rw [UInt64.lt_iff_toNat_lt, eosVt, UInt64.toNat_add, UInt64.toNat_add, UInt64.toNat_mul,
      hterminal, hlead, hten, UInt64.toNat_ofNat_of_lt' (by simp only [UInt64.size]; omega), hsmall]
    rw [Nat.mod_eq_of_lt (by omega), Nat.mod_eq_of_lt (by omega)]
    omega

/-- On a clock that does not wrap only the rolling heartbeats can be early. -/
theorem inStep_iff (hpkts : packets cfg gt = some (pkts, prngA)) (hclock : Unwrapped gt cfg) :
    InStep cfg pkts ↔
      cfg.heartbeatIntervalNs = 0 ∨ lastVt cfg pkts ≤ cfg.heartbeatIntervalNs := by
  obtain ⟨hlatest, hroom⟩ := latestVt_eq hpkts hclock
  constructor
  · intro h
    exact h.interval (hlatest ▸ UInt64.le_refl _)
  · intro h
    have hone : UInt64.ofNat 1 * cfg.heartbeatIntervalNs = cfg.heartbeatIntervalNs :=
      UInt64.one_mul _
    have hends := lt_endVts hroom
    rw [endVts, List.nil_append, List.forall_mem_cons, List.forall_mem_map] at hends
    refine ⟨h.imp_right fun hle => ⟨1, Nat.one_pos, ?_, ?_⟩, ?_, ?_⟩
    · rw [hlatest, hone]
      exact hle
    · intro k hk hlt
      omega
    · exact hlatest ▸ UInt64.le_of_lt hends.1
    · intro step hstep
      exact hlatest ▸ UInt64.le_of_lt (hends.2 step (List.mem_range.mpr hstep))

end Unwrapped

theorem packets_of_built {gt : Slice} {cfg : ReplayConfig} {sched : ReplaySchedule}
    (h : buildSchedule gt cfg = some sched) :
    ∃ pkts prngA, packets cfg gt = some (pkts, prngA) := by
  rcases eq_or_ne (lengths gt) [] with hnil | hne
  · refine ⟨[], ⟨cfg.seedA⟩, ?_⟩
    rw [packets, hnil]
    rfl
  · rw [buildSchedule, if_neg hne, Option.bind_eq_bind, Option.bind_eq_some_iff] at h
    obtain ⟨⟨pkts, prngA⟩, hpkts, -⟩ := h
    exact ⟨pkts, prngA, hpkts⟩

/-- A schedule is built in which no announcement is ahead of what has been released, and no
announcement's frame opens a gap at a sequencer that has taken what was released, exactly when the
last packet is released no later than any announcement. On a clock that does not wrap, that is when
there are no rolling heartbeats or the last packet is released within one interval. -/
theorem heartbeats_lawful_iff (gt : Slice) (cfg : ReplayConfig) (h : Undelayed cfg)
    (hsplit : cfg.sessionChangeAtMsg = none) :
    ((∃ sched, buildSchedule gt cfg = some sched ∧ Lawful sched.events ∧ Gapless gt sched) ↔
        ∃ pkts prngA, packets cfg gt = some (pkts, prngA) ∧ InStep cfg pkts) ∧
      (Unwrapped gt cfg →
        ∀ pkts prngA, packets cfg gt = some (pkts, prngA) → (InStep cfg pkts ↔
          cfg.heartbeatIntervalNs = 0 ∨ lastVt cfg pkts ≤ cfg.heartbeatIntervalNs)) := by
  refine ⟨⟨?_, ?_⟩, fun hclock pkts prngA hpkts => inStep_iff hpkts hclock⟩
  · rintro ⟨sched, hsched, hlawful, -⟩
    obtain ⟨pkts, prngA, hpkts⟩ := packets_of_built hsched
    exact ⟨pkts, prngA, hpkts, (built_lawful_iff h hsplit hpkts).mp ⟨sched, hsched, hlawful⟩⟩
  · rintro ⟨pkts, prngA, hpkts, hstep⟩
    obtain ⟨sched, hsched, hlawful⟩ := (built_lawful_iff h hsplit hpkts).mpr hstep
    exact ⟨sched, hsched, hlawful, hlawful.gapless⟩

/-! ## Two messages -/

def systemEvent : List UInt8 := [83, 0, 1, 0, 0, 0, 0, 0, 0, 0, 1, 79]

def twoEvents : Slice := ⟨blockBytes [systemEvent, systemEvent], by decide⟩

/-- One message a packet and a microsecond, and a heartbeat every so often. -/
def beating (heartbeatIntervalNs : UInt64) : ReplayConfig where
  seedA := 1
  seedB := 2
  msgsPerPacket := .fixed 1
  loss _ := .none
  delay _ := .none
  baseRateMsgPerSec := 1000000
  heartbeatIntervalNs := heartbeatIntervalNs
  guaranteeCoverage := true
  scriptedDrops := []
  sessionChangeAtMsg := none
  feedsEnabled := 3

theorem beating_undelayed (heartbeatIntervalNs : UInt64) :
    Undelayed (beating heartbeatIntervalNs) := by
  have hfeeds : enabled 3 0 = true ∧ enabled 3 1 = true := by decide
  exact ⟨⟨hfeeds.1, hfeeds.2, rfl⟩, fun _ => rfl⟩

theorem packets_beating (heartbeatIntervalNs : UInt64) :
    packets (beating heartbeatIntervalNs) twoEvents =
      some ([⟨0, 1, true⟩, ⟨1, 1, true⟩], ⟨1⟩) := rfl

theorem heartbeats_lawful_iff_slow :
    ∃ sched, buildSchedule twoEvents (beating 1000) = some sched ∧ Lawful sched.events ∧
      Gapless twoEvents sched := by
  have hall := heartbeats_lawful_iff twoEvents (beating 1000) (beating_undelayed 1000) rfl
  have hlengths : (lengths twoEvents).length = 2 := by decide
  have hns : (nsPerMsg (beating 1000)).toNat = 1000 := by decide
  have hclock : Unwrapped twoEvents (beating 1000) := by
    rw [Unwrapped, hlengths, hns]
    decide
  exact hall.1.mpr ⟨_, _, packets_beating 1000,
    (hall.2 hclock _ _ (packets_beating 1000)).mpr (.inr (by decide))⟩

/-- The first packet and a rolling heartbeat before the second one. -/
def earlyEvents : List SchedEvent :=
  [⟨0, 0, .packet 1 0 1⟩, ⟨500, 0, .heartbeat 3⟩]

/-- With a shorter interval a rolling heartbeat announces the second message before it is sent, and
the sequencer that is fed the two frames opens a gap. -/
theorem rolling_heartbeat_opens_gap :
    (∃ sched, buildSchedule twoEvents (beating 500) = some sched ∧
      (∀ e ∈ earlyEvents, e ∈ sched.events) ∧
        Arbitrator.Output.sink (.onEvent (.gapOpened 2 (some 3) 1)) ∈
          (Sequencer.run (earlyEvents.filterMap fun e =>
            (frameOf twoEvents.1 sched ⟨List.replicate 10 65, rfl⟩ e.kind).map fun frame =>
              .frame frame e.feed e.releaseVt.toNat)).2) ∧
      ¬ ∃ sched, buildSchedule twoEvents (beating 500) = some sched ∧ Lawful sched.events ∧
        Gapless twoEvents sched := by
  constructor
  · refine ⟨_, rfl, ?_, by decide +kernel⟩
    have hmem : ∀ e ∈ earlyEvents, e ∈ packetEvents (beating 500) [⟨0, 1, true⟩, ⟨1, 1, true⟩] ⟨1⟩ ++
        terminals (beating 500) [500] 1000 3 := by
      decide
    intro e he
    exact List.mem_mergeSort.mpr (hmem e he)
  · rintro ⟨sched, hsched, hlawful, -⟩
    have hstep := (built_lawful_iff (beating_undelayed 500) rfl (packets_beating 500)).mp
      ⟨sched, hsched, hlawful⟩
    rcases hstep.interval (by decide) with hzero | hle
    · exact absurd hzero (by decide)
    · exact absurd hle (by decide)

end HftProj.Testkit.ReplayBuilder
