import HftProj.Testkit.Packetization
import Mathlib.Data.List.Pairwise

/-!
# Coverage

Whatever the random streams, the losses, the drops and the delays, a packet that both feeds would
drop is delivered on one of them. A schedule is therefore a sorted list of the deliveries of every
packet, on one feed or on both, and of what ends the feeds.
-/

namespace HftProj.Testkit.ReplayBuilder

open HftProj.Lib HftProj.Protocol.Moldudp64 HftProj.Transport
open HftProj.Arbitrator (FeedId)

/-! ## One packet -/

section Packet

variable {cfg : ReplayConfig} {st : Chaos} {feed : Fin 2}

/-- A step that leaves the events and the clock alone. -/
def Chaos.Quiet (st st' : Chaos) : Prop :=
  st'.events = st.events ∧ st'.cumulativeMsgs = st.cumulativeMsgs

theorem evalLoss_quiet (firstSeq pktEndSeq : UInt64) :
    st.Quiet (evalLoss cfg firstSeq pktEndSeq feed st).2 := by
  rw [evalLoss]
  split
  · exact ⟨rfl, rfl⟩
  · split
    · exact ⟨rfl, rfl⟩
    · split <;> exact ⟨rfl, rfl⟩

theorem guarantee_quiet (dropped : Fin 2 → Bool) : st.Quiet (guarantee cfg dropped st).2 := by
  rw [guarantee]
  split <;> exact ⟨rfl, rfl⟩

variable (cfg st feed) in
theorem delayNs_quiet : st.Quiet (delayNs cfg feed st).2 := by
  rw [delayNs]
  split <;> exact ⟨rfl, rfl⟩

/-- Both feeds are on and coverage is guaranteed. -/
structure Covering (cfg : ReplayConfig) : Prop where
  feedA : enabled cfg.feedsEnabled 0 = true
  feedB : enabled cfg.feedsEnabled 1 = true
  coverage : cfg.guaranteeCoverage = true

variable (st) in
/-- A guaranteed packet is not dropped on both feeds. -/
theorem guarantee_delivers (h : Covering cfg) (dropped : Fin 2 → Bool) :
    (guarantee cfg dropped st).1 0 = false ∨ (guarantee cfg dropped st).1 1 = false := by
  rw [guarantee, h.feedA, h.feedB, h.coverage]
  cases hA : dropped 0 with
  | false => exact .inl hA
  | true =>
      cases hB : dropped 1 with
      | false => exact .inr hB
      | true =>
          simp only [Bool.and_self, if_true]
          split
          · exact .inl (Function.update_self ..)
          · exact .inr (Function.update_self ..)

/-- A delivery of a packet on a feed. -/
def delivery (kind : SchedKind) (vt : Fin 2 → UInt64) (feed : Fin 2) : SchedEvent :=
  ⟨vt feed, UInt8.ofNat feed.val, kind⟩

/-- The release time on a feed without delays is the base time. -/
def Timely (cfg : ReplayConfig) (baseVt : UInt64) (vt : Fin 2 → UInt64) : Prop :=
  (∀ feed, cfg.delay feed = .none) → ∀ feed, vt feed = baseVt

theorem releaseVt_zero (baseVt : UInt64) : releaseVt baseVt 0 = baseVt := by
  have hzero : (0 : Int64).toUInt64.toNat = 0 := rfl
  rw [releaseVt, if_pos (by decide), hzero, saturatingAdd, Nat.add_zero,
    Nat.min_eq_left (Nat.le_sub_one_of_lt baseVt.toNat_lt), UInt64.ofNat_toNat]

variable (cfg) in
/-- The deliveries of a packet, on the feeds that do not drop it. -/
theorem deliver_both (baseVt : UInt64) (kind : SchedKind) (dropped : Fin 2 → Bool) (st : Chaos) :
    ∃ vt, Timely cfg baseVt vt ∧
      ([0, 1].foldl (deliver cfg baseVt kind dropped) st).events =
        st.events ++ (([0, 1] : List (Fin 2)).filter fun feed => !dropped feed).map
          (delivery kind vt) ∧
      ([0, 1].foldl (deliver cfg baseVt kind dropped) st).cumulativeMsgs = st.cumulativeMsgs := by
  let stA := deliver cfg baseVt kind dropped st 0
  let vt : Fin 2 → UInt64 := fun feed =>
    releaseVt baseVt (delayNs cfg feed (if feed = 0 then st else stA)).1
  have hone (st : Chaos) (feed : Fin 2) :
      (deliver cfg baseVt kind dropped st feed).events = st.events ++
        (([feed] : List (Fin 2)).filter fun feed => !dropped feed).map fun feed =>
          ⟨releaseVt baseVt (delayNs cfg feed st).1, UInt8.ofNat feed.val, kind⟩ := by
    rw [deliver]
    cases hdrop : dropped feed with
    | true => simp [hdrop]
    | false => simp [hdrop, (delayNs_quiet cfg st feed).1]
  have hclock (st : Chaos) (feed : Fin 2) :
      (deliver cfg baseVt kind dropped st feed).cumulativeMsgs = st.cumulativeMsgs := by
    rw [deliver]
    split
    · rfl
    · exact (delayNs_quiet cfg st feed).2
  refine ⟨vt, ?_, ?_, ?_⟩
  · intro hnone feed
    simp only [vt, delayNs, hnone feed]
    exact releaseVt_zero baseVt
  · rw [List.foldl_cons, List.foldl_cons, List.foldl_nil, hone, hone]
    cases hA : dropped 0 <;> cases hB : dropped 1 <;> simp [hA, hB, delivery, vt, stA]
  · rw [List.foldl_cons, List.foldl_cons, List.foldl_nil, hclock, hclock]

/-- The packet as an event's kind. -/
def packetKind (cfg : ReplayConfig) (pkt : RawPacket) : SchedKind :=
  .packet (packetFirstSeq cfg (UInt64.ofNat pkt.firstMsg)) (UInt64.ofNat pkt.firstMsg)
    (UInt16.ofNat pkt.count)

/-- A packet's deliveries: on some of the feeds, and on one at least when they are covered. -/
def Delivered (cfg : ReplayConfig) (baseVt : UInt64) (pkt : RawPacket)
    (events : List SchedEvent) : Prop :=
  ∃ feeds vt, feeds.Sublist ([0, 1] : List (Fin 2)) ∧ Timely cfg baseVt vt ∧
    (Covering cfg → feeds ≠ []) ∧ events = feeds.map (delivery (packetKind cfg pkt) vt)

theorem packetStep_spec (cfg : ReplayConfig) (st : Chaos) (pkt : RawPacket) :
    ∃ events, Delivered cfg (st.cumulativeMsgs * nsPerMsg cfg) pkt events ∧
      (packetStep cfg st pkt).events = st.events ++ events ∧
      (packetStep cfg st pkt).cumulativeMsgs =
        st.cumulativeMsgs + (UInt16.ofNat pkt.count).toUInt64 := by
  let count := (UInt16.ofNat pkt.count).toUInt64
  let firstSeq := packetFirstSeq cfg (UInt64.ofNat pkt.firstMsg)
  let st₀ : Chaos := { st with cumulativeMsgs := st.cumulativeMsgs + count }
  let lossA := evalLoss cfg firstSeq (firstSeq + count - 1) 0 st₀
  let lossB := evalLoss cfg firstSeq (firstSeq + count - 1) 1 lossA.2
  let settled := guarantee cfg (fun feed => if feed = 0 then lossA.1 else lossB.1) lossB.2
  have hA : st₀.Quiet lossA.2 := evalLoss_quiet _ _
  have hB : lossA.2.Quiet lossB.2 := evalLoss_quiet _ _
  have hsettled : lossB.2.Quiet settled.2 := guarantee_quiet _
  have hquiet : settled.2.events = st.events ∧
      settled.2.cumulativeMsgs = st.cumulativeMsgs + count :=
    ⟨hsettled.1.trans (hB.1.trans hA.1), hsettled.2.trans (hB.2.trans hA.2)⟩
  obtain ⟨vt, htime, hevents, hclock⟩ := deliver_both cfg
    (st.cumulativeMsgs * nsPerMsg cfg) (packetKind cfg pkt) settled.1 settled.2
  refine ⟨_, ⟨_, vt, List.filter_sublist, htime, ?_, rfl⟩, hquiet.1 ▸ hevents,
    hquiet.2 ▸ hclock⟩
  intro hcover hnone
  rw [List.filter_eq_nil_iff] at hnone
  rcases guarantee_delivers lossB.2 hcover
    (fun feed => if feed = 0 then lossA.1 else lossB.1) with hzero | hone
  · exact hnone 0 (by simp) (by rw [hzero]; rfl)
  · exact hnone 1 (by simp) (by rw [hone]; rfl)

end Packet

/-! ## All packets -/

section Packets

variable {cfg : ReplayConfig} {pkts : List RawPacket} {first last : ℕ}

theorem count_cast {n : ℕ} (h : n < 2 ^ 16) : (UInt16.ofNat n).toUInt64 = UInt64.ofNat n := by
  apply UInt64.toNat_inj.mp
  rw [UInt16.toNat_toUInt64, UInt16.toNat_ofNat_of_lt' h, UInt64.toNat_ofNat_of_lt' (h.trans (by decide))]

/-- The packet events are the deliveries of the packets one after the other, each at its base
time. -/
theorem packetSteps_spec (htiled : Tiled last first pkts) (st : Chaos)
    (hclock : st.cumulativeMsgs = UInt64.ofNat first) :
    ∃ deliveries : List (List SchedEvent),
      List.Forall₂ (fun pkt => Delivered cfg (UInt64.ofNat pkt.firstMsg * nsPerMsg cfg) pkt) pkts
        deliveries ∧
      (pkts.foldl (packetStep cfg) st).events = st.events ++ deliveries.flatten := by
  induction pkts generalizing first st with
  | nil => exact ⟨[], List.Forall₂.nil, (List.append_nil _).symm⟩
  | cons pkt pkts ih =>
      obtain ⟨rfl, -, hlt, hrest⟩ := htiled
      obtain ⟨events, hmade, hstep, hnext⟩ := packetStep_spec cfg st pkt
      rw [hclock, count_cast hlt, ← UInt64.ofNat_add] at hnext
      obtain ⟨deliveries, hall, hrun⟩ := ih hrest (packetStep cfg st pkt) hnext
      refine ⟨events :: deliveries, List.Forall₂.cons (hclock ▸ hmade) hall, ?_⟩
      rw [List.foldl_cons, hrun, hstep, List.flatten_cons, List.append_assoc]

end Packets

/-- An event carries a message. -/
def carries (i : ℕ) (e : SchedEvent) : Bool :=
  match e.kind with
  | .packet _ firstMsg count => firstMsg.toNat ≤ i && i < firstMsg.toNat + count.toNat
  | .heartbeat _ | .endOfSession _ => false

section Carried

variable {cfg : ReplayConfig} {pkts : List RawPacket} {first last : ℕ}
  {deliveries : List (List SchedEvent)}

variable (cfg) in
theorem carries_delivery {pkt : RawPacket} (hcount : pkt.count < 2 ^ 16)
    (hfirst : pkt.firstMsg < 2 ^ 64) (vt : Fin 2 → UInt64) (feed : Fin 2) (i : ℕ) :
    carries i (delivery (packetKind cfg pkt) vt feed) = true ↔
      pkt.firstMsg ≤ i ∧ i < pkt.firstMsg + pkt.count := by
  rw [delivery, packetKind, carries]
  simp only
  rw [UInt64.toNat_ofNat_of_lt' hfirst, UInt16.toNat_ofNat_of_lt' hcount, Bool.and_eq_true,
    decide_eq_true_iff, decide_eq_true_iff]

theorem feeds_nodup {feeds : List (Fin 2)} (h : feeds.Sublist [0, 1]) : feeds.Nodup :=
  List.Sublist.nodup h (by decide)

theorem feed_injective {a b : Fin 2} (h : UInt8.ofNat a.val = UInt8.ofNat b.val) : a = b := by
  revert a b
  decide

/-- The deliveries carry the packets' messages, each on a feed at most once. -/
theorem deliveries_carry (htiled : Tiled last first pkts) (hlast : last < 2 ^ 64)
    (hall : List.Forall₂
      (fun pkt => Delivered cfg (UInt64.ofNat pkt.firstMsg * nsPerMsg cfg) pkt) pkts deliveries) :
    (deliveries.flatten.Pairwise fun e e' => e.feed = e'.feed →
        ∀ i, ¬ (carries i e = true ∧ carries i e' = true)) ∧
      (∀ e ∈ deliveries.flatten, ∀ i, carries i e = true → first ≤ i) ∧
      (Covering cfg → ∀ i, first ≤ i → i < last →
        ∃ e ∈ deliveries.flatten, carries i e = true) := by
  induction hall generalizing first with
  | nil =>
      obtain rfl : first = last := htiled
      exact ⟨List.Pairwise.nil, nofun, fun _ i h₁ h₂ => absurd h₂ (Nat.not_lt.mpr h₁)⟩
  | cons hmade hall ih =>
      rename_i pkt events pkts deliveries
      obtain ⟨rfl, hpos, hlt, hrest⟩ := htiled
      obtain ⟨feeds, vt, hsub, -, hsome, rfl⟩ := hmade
      obtain ⟨hpair, hlow, hcover⟩ := ih hrest
      have hend := hrest.partition.2
      have hcarry (feed : Fin 2) (i : ℕ) := @carries_delivery cfg pkt hlt (by omega) vt feed i
      refine ⟨?_, ?_, ?_⟩
      · rw [List.flatten_cons, List.pairwise_append]
        refine ⟨?_, hpair, ?_⟩
        · rw [List.pairwise_map]
          apply List.Pairwise.imp _ (feeds_nodup hsub)
          intro a b hab hfeed
          exact absurd (feed_injective hfeed) hab
        · intro e he e' he' _ i hboth
          obtain ⟨feed, -, rfl⟩ := List.mem_map.mp he
          have hupper := ((hcarry feed i).mp hboth.1).2
          have hlower := hlow e' he' i hboth.2
          omega
      · intro e he i hi
        rw [List.flatten_cons, List.mem_append] at he
        rcases he with he | he
        · obtain ⟨feed, -, rfl⟩ := List.mem_map.mp he
          exact ((hcarry feed i).mp hi).1
        · have hlower := hlow e he i hi
          omega
      · intro hcovering i h₁ h₂
        rcases Nat.lt_or_ge i (pkt.firstMsg + pkt.count) with hin | hout
        · obtain ⟨feed, feeds', rfl⟩ := List.exists_cons_of_ne_nil (hsome hcovering)
          refine ⟨delivery (packetKind cfg pkt) vt feed, ?_, (hcarry feed i).mpr ⟨h₁, hin⟩⟩
          rw [List.flatten_cons, List.map_cons]
          exact List.mem_append_left _ (List.mem_cons_self ..)
        · obtain ⟨e, he, hi⟩ := hcover hcovering i hout h₂
          exact ⟨e, List.mem_append_right _ he, hi⟩

/-- Of events that exclude each other at most one is picked. -/
theorem length_filter_le_one {R : SchedEvent → SchedEvent → Prop} {events : List SchedEvent}
    (h : events.Pairwise R) {pick : SchedEvent → Bool}
    (hpick : ∀ a b, pick a = true → pick b = true → ¬ R a b) : (events.filter pick).length ≤ 1 := by
  have hfilter : (events.filter pick).Pairwise R := h.filter pick
  have hmem : ∀ e ∈ events.filter pick, pick e = true := fun e he => (List.mem_filter.mp he).2
  generalize events.filter pick = picked at hfilter hmem
  match picked with
  | [] => exact Nat.zero_le 1
  | [_] => exact Nat.le_refl 1
  | a :: b :: rest =>
      rw [List.pairwise_cons] at hfilter
      exact absurd (hfilter.1 b (List.mem_cons_self ..)) (hpick a b (hmem a (List.mem_cons_self ..))
        (hmem b (List.mem_cons_of_mem _ (List.mem_cons_self ..))))

end Carried

/-! ## Rolling heartbeats -/

section Rolling

variable {interval final : UInt64}

theorem times_succ (hbVt : UInt64) (k : ℕ) :
    hbVt + UInt64.ofNat (k + 1) * interval = hbVt + interval + UInt64.ofNat k * interval := by
  have hone : UInt64.ofNat 1 * interval = interval := UInt64.one_mul interval
  rw [UInt64.ofNat_add, UInt64.add_mul]
  rw [hone, UInt64.add_assoc, UInt64.add_comm interval]

theorem times_zero (hbVt : UInt64) : hbVt + UInt64.ofNat 0 * interval = hbVt := by
  have hzero : UInt64.ofNat 0 * interval = 0 := UInt64.zero_mul
  rw [hzero, UInt64.add_zero]

/-- The loop makes one heartbeat an interval, up to the first time that is not before the end. -/
theorem rollingVts_some (fuel : ℕ) (hbVt : UInt64) (vts : List UInt64) :
    rollingVts interval final fuel hbVt = some vts ↔
      ∃ n < fuel, (∀ k < n, hbVt + UInt64.ofNat k * interval < final) ∧
        ¬ hbVt + UInt64.ofNat n * interval < final ∧
        vts = (List.range n).map fun k => hbVt + UInt64.ofNat k * interval := by
  induction fuel generalizing hbVt vts with
  | zero => exact ⟨nofun, fun ⟨n, hn, _⟩ => absurd hn (Nat.not_lt_zero n)⟩
  | succ fuel ih =>
      rw [rollingVts]
      split
      · rename_i hlt
        rw [Option.map_eq_some_iff]
        constructor
        · rintro ⟨rest, hrest, rfl⟩
          obtain ⟨n, hn, hbefore, hend, rfl⟩ := (ih _ _).mp hrest
          refine ⟨n + 1, Nat.succ_lt_succ hn, ?_, times_succ hbVt n ▸ hend, ?_⟩
          · intro k hk
            cases k with
            | zero => rwa [times_zero]
            | succ k => exact times_succ hbVt k ▸ hbefore k (Nat.lt_of_succ_lt_succ hk)
          · rw [List.range_succ_eq_map, List.map_cons, List.map_map, times_zero]
            congr 1
            apply List.map_congr_left
            intro k _
            exact (times_succ hbVt k).symm
        · rintro ⟨n, hn, hbefore, hend, rfl⟩
          cases n with
          | zero => exact absurd hlt (times_zero hbVt ▸ hend)
          | succ n =>
              refine ⟨_, (ih _ _).mpr ⟨n, Nat.lt_of_succ_lt_succ hn, ?_, times_succ hbVt n ▸ hend,
                rfl⟩, ?_⟩
              · intro k hk
                exact times_succ hbVt k ▸ hbefore (k + 1) (Nat.succ_lt_succ hk)
              · rw [List.range_succ_eq_map, List.map_cons, List.map_map, times_zero]
                congr 1
                apply List.map_congr_left
                intro k _
                exact (times_succ hbVt k).symm
      · rename_i hge
        constructor
        · intro hnil
          refine ⟨0, Nat.succ_pos fuel, nofun, ?_, ?_⟩
          · rwa [times_zero]
          · exact (Option.some.inj hnil).symm
        · rintro ⟨n, -, hbefore, -, rfl⟩
          cases n with
          | zero => rfl
          | succ n => exact absurd (times_zero hbVt ▸ hbefore 0 (Nat.succ_pos n)) hge

theorem rollingVts_none (fuel : ℕ) (hbVt : UInt64) :
    rollingVts interval final fuel hbVt = none ↔
      ∀ k < fuel, hbVt + UInt64.ofNat k * interval < final := by
  induction fuel generalizing hbVt with
  | zero => exact ⟨fun _ k hk => absurd hk (Nat.not_lt_zero k), fun _ => rfl⟩
  | succ fuel ih =>
      rw [rollingVts]
      split
      · rename_i hlt
        rw [Option.map_eq_none_iff, ih]
        constructor
        · intro h k hk
          cases k with
          | zero => rwa [times_zero]
          | succ k => exact times_succ hbVt k ▸ h k (Nat.lt_of_succ_lt_succ hk)
        · intro h k hk
          exact times_succ hbVt k ▸ h (k + 1) (Nat.succ_lt_succ hk)
      · rename_i hge
        constructor
        · intro h
          cases h
        · intro h
          exact absurd (times_zero hbVt ▸ h 0 (Nat.succ_pos fuel)) hge

theorem times_ofNat (k : ℕ) :
    interval + UInt64.ofNat k * interval = UInt64.ofNat (k + 1) * interval := by
  have hnext : 0 + UInt64.ofNat (k + 1) * interval = 0 + interval + UInt64.ofNat k * interval :=
    times_succ 0 k
  rwa [UInt64.zero_add, UInt64.zero_add, eq_comm] at hnext

/-- The loop of rolling heartbeats never ends when no multiple of the interval reaches the end. -/
theorem rolling_none : rolling interval final = none ↔
    interval ≠ 0 ∧ ∀ k : UInt64, k * interval < final := by
  rw [rolling]
  split
  · rename_i hpos
    have hne : interval ≠ 0 := fun hzero => absurd (hzero ▸ hpos) (UInt64.lt_irrefl 0)
    rw [rollingVts_none, and_iff_right hne]
    constructor
    · intro h k
      -- The multiple 0 is the last one that the loop tries, at round `2 ^ 64`.
      have hround := h ((k.toNat + (2 ^ 64 - 1)) % 2 ^ 64) (Nat.mod_lt _ (by decide))
      rw [times_ofNat] at hround
      have hcast : UInt64.ofNat ((k.toNat + (2 ^ 64 - 1)) % 2 ^ 64 + 1) = k := by
        apply UInt64.toNat_inj.mp
        have hlt := k.toNat_lt
        rw [UInt64.toNat_ofNat']
        omega
      rwa [hcast] at hround
    · intro h k _
      rw [times_ofNat]
      exact h _
  · rename_i hpos
    constructor
    · intro h
      cases h
    · rintro ⟨hne, -⟩
      exact absurd (UInt64.pos_iff_ne_zero.mpr hne) hpos

end Rolling

/-! ## The schedule -/

/-- Every message is carried, by one event at most on a feed. -/
def Covered (n : ℕ) (events : List SchedEvent) : Prop :=
  ∀ i < n, (∃ e ∈ events, carries i e = true) ∧
    ∀ feed : FeedId, (events.filter fun e => e.feed = feed && carries i e).length ≤ 1

/-- The order law of the schedule. -/
def Ordered (events : List SchedEvent) : Prop :=
  events.Pairwise fun a b => (eventCmp a b).isLE = true

section Schedule

variable {gt : Slice} {cfg : ReplayConfig} {pkts : List RawPacket} {prngA : SplitMix64}
  {sched : ReplaySchedule}

theorem ordered_mergeSort (events : List SchedEvent) :
    Ordered (events.mergeSort fun a b => (eventCmp a b).isLE) := by
  have htrans : Std.TransCmp eventCmp :=
    inferInstanceAs (Std.TransCmp (compareLex _ (compareLex _ (compareLex _ _))))
  apply List.pairwise_mergeSort
  · intro a b c hab hbc
    exact Std.TransCmp.isLE_trans hab hbc
  · intro a b
    have hswap : eventCmp a b = (eventCmp b a).swap := Std.OrientedCmp.eq_swap
    rw [hswap]
    cases eventCmp b a <;> rfl

theorem lengths_length_lt (gt : Slice) : (lengths gt).length < 2 ^ 63 := by
  have hle (fuel pos : ℕ) : (msgInfos gt.1 fuel pos).length ≤ fuel := by
    induction fuel generalizing pos with
    | zero => exact Nat.le_refl 0
    | succ fuel ih =>
        rw [msgInfos]
        split
        · exact Nat.zero_le _
        · split
          · exact Nat.zero_le _
          · exact Nat.succ_le_succ (ih _)
  exact (hle _ _).trans_lt gt.2

theorem packets_tiled (h : packets cfg gt = some (pkts, prngA)) :
    Tiled (lengths gt).length 0 pkts := by
  have htiled := packetize_tiled _ (Nat.le_refl _) h
  rwa [Nat.zero_add] at htiled

/-- The packet events are deliveries of the packets. -/
theorem packetEvents_spec (h : packets cfg gt = some (pkts, prngA)) :
    ∃ deliveries : List (List SchedEvent),
      List.Forall₂ (fun pkt => Delivered cfg (UInt64.ofNat pkt.firstMsg * nsPerMsg cfg) pkt) pkts
        deliveries ∧ packetEvents cfg pkts prngA = deliveries.flatten :=
  packetSteps_spec (packets_tiled h) (.start cfg prngA) rfl

theorem packetEvents_covered (hcover : Covering cfg) (h : packets cfg gt = some (pkts, prngA)) :
    Covered (lengths gt).length (packetEvents cfg pkts prngA) := by
  obtain ⟨deliveries, hall, hevents⟩ := packetEvents_spec h
  obtain ⟨hpair, -, hcarried⟩ := deliveries_carry (packets_tiled h)
    ((lengths_length_lt gt).trans (by decide)) hall
  intro i hi
  rw [hevents]
  refine ⟨hcarried hcover i (Nat.zero_le i) hi, fun feed => length_filter_le_one hpair ?_⟩
  intro a b ha hb hexclude
  rw [Bool.and_eq_true, decide_eq_true_eq] at ha hb
  exact hexclude (ha.1.trans hb.1.symm) i ⟨ha.2, hb.2⟩

theorem terminals_carry_nothing (rollingAt : List UInt64) (final nextSeq : UInt64) (i : ℕ) :
    ∀ e ∈ terminals cfg rollingAt final nextSeq, carries i e = false := by
  intro e he
  obtain ⟨feed, -, he⟩ := List.mem_flatMap.mp he
  split at he
  · rw [terminate, List.mem_append, List.mem_cons] at he
    rcases he with he | rfl | he
    · obtain ⟨vt, -, rfl⟩ := List.mem_map.mp he
      rfl
    · rfl
    · obtain ⟨step, -, rfl⟩ := List.mem_map.mp he
      rfl
  · cases he

theorem covered_perm {n : ℕ} {xs ys : List SchedEvent} (hperm : ys.Perm xs) (h : Covered n xs) :
    Covered n ys := by
  intro i hi
  obtain ⟨⟨e, he, hcarry⟩, hone⟩ := h i hi
  refine ⟨⟨e, hperm.mem_iff.mpr he, hcarry⟩, fun feed => ?_⟩
  rw [(hperm.filter _).length_eq]
  exact hone feed

theorem covered_append {n : ℕ} {xs ys : List SchedEvent} (h : Covered n xs)
    (hys : ∀ i, ∀ e ∈ ys, carries i e = false) : Covered n (xs ++ ys) := by
  intro i hi
  obtain ⟨⟨e, he, hcarry⟩, hone⟩ := h i hi
  refine ⟨⟨e, List.mem_append_left _ he, hcarry⟩, fun feed => ?_⟩
  have hnone : (ys.filter fun e => e.feed = feed && carries i e) = [] := by
    rw [List.filter_eq_nil_iff]
    intro e he
    rw [hys i e he, Bool.and_false]
    exact Bool.false_ne_true
  rw [List.filter_append, hnone, List.append_nil]
  exact hone feed

/-- A feed that is on keeps the terminal branch. -/
theorem Covering.feeds (h : Covering cfg) : cfg.feedsEnabled &&& 3 ≠ 0 := by
  intro hzero
  have hbit : cfg.feedsEnabled &&& 1 = cfg.feedsEnabled &&& 3 &&& 1 := by
    rw [UInt8.and_assoc]
    rfl
  have hfeed := of_decide_eq_true h.feedA
  apply hfeed
  change cfg.feedsEnabled &&& 1 = 0
  rw [hbit, hzero, UInt8.zero_and]

/-- What is built is the packet events and the terminal events, sorted. -/
theorem Covering.build (h : Covering cfg) (hne : lengths gt ≠ [])
    (hpkts : packets cfg gt = some (pkts, prngA)) :
    let events := packetEvents cfg pkts prngA
    let nextSeq := finalNextSeq cfg (UInt64.ofNat (lengths gt).length)
    buildSchedule gt cfg =
      (rolling cfg.heartbeatIntervalNs (finalVt events)).map fun rollingAt =>
        { events := (events ++ terminals cfg rollingAt (finalVt events) nextSeq).mergeSort
            fun a b => (eventCmp a b).isLE
          sessionSplit := cfg.sessionChangeAtMsg.map fun m => (m, splitSession) } := by
  intro events nextSeq
  rw [buildSchedule, if_neg hne, hpkts]
  simp only [Option.bind_eq_bind, Option.bind_some, if_neg h.feeds]
  cases rolling cfg.heartbeatIntervalNs (finalVt (packetEvents cfg pkts prngA)) <;> rfl

theorem buildSchedule_nil (hnil : lengths gt = []) : buildSchedule gt cfg = some ⟨[], none⟩ := by
  rw [buildSchedule, if_pos hnil]

/-- Every event of a packet takes the packet's messages under their own numbers. -/
def OfPackets (pkts : List RawPacket) (events : List SchedEvent) : Prop :=
  ∀ e ∈ events, ∀ firstSeq firstMsg count, e.kind = .packet firstSeq firstMsg count →
    firstSeq.toNat = firstMsg.toNat + 1 ∧
      ∃ pkt ∈ pkts, pkt.firstMsg = firstMsg.toNat ∧ pkt.count = count.toNat

theorem forall₂_right {α β : Type*} {R : α → β → Prop} {xs : List α} {ys : List β}
    (h : List.Forall₂ R xs ys) {y : β} (hy : y ∈ ys) : ∃ x ∈ xs, R x y := by
  induction h with
  | nil => cases hy
  | cons hR _ ih =>
      rcases List.mem_cons.mp hy with rfl | hy
      · exact ⟨_, List.mem_cons_self .., hR⟩
      · obtain ⟨x, hx, hxy⟩ := ih hy
        exact ⟨x, List.mem_cons_of_mem _ hx, hxy⟩

theorem packetEvents_ofPackets (hsplit : cfg.sessionChangeAtMsg = none)
    (h : packets cfg gt = some (pkts, prngA)) : OfPackets pkts (packetEvents cfg pkts prngA) := by
  obtain ⟨deliveries, hall, hevents⟩ := packetEvents_spec h
  rw [hevents]
  intro e he firstSeq firstMsg count hkind
  obtain ⟨events, hmem, he⟩ := List.mem_flatten.mp he
  obtain ⟨pkt, hpkt, feeds, vt, -, -, -, rfl⟩ := forall₂_right hall hmem
  obtain ⟨feed, -, rfl⟩ := List.mem_map.mp he
  obtain ⟨-, hpos, hlt, hend⟩ := (packets_tiled h).mem hpkt
  have hmany := lengths_length_lt gt
  simp only [delivery, packetKind, packetFirstSeq, hsplit, SchedKind.packet.injEq] at hkind
  obtain ⟨rfl, rfl, rfl⟩ := hkind
  have hfirst : (UInt64.ofNat pkt.firstMsg).toNat = pkt.firstMsg :=
    UInt64.toNat_ofNat_of_lt' (by simp only [UInt64.size]; omega)
  have hone : (1 : UInt64).toNat = 1 := rfl
  refine ⟨?_, pkt, hpkt, hfirst.symm, (UInt16.toNat_ofNat_of_lt' hlt).symm⟩
  rw [UInt64.toNat_add, hfirst, hone]
  omega

theorem terminals_ofPackets (rollingAt : List UInt64) (final nextSeq : UInt64) :
    OfPackets pkts (terminals cfg rollingAt final nextSeq) := by
  intro e he firstSeq firstMsg count hkind
  obtain ⟨feed, -, he⟩ := List.mem_flatMap.mp he
  split at he
  · rw [terminate, List.mem_append, List.mem_cons] at he
    rcases he with he | rfl | he
    · obtain ⟨vt, -, rfl⟩ := List.mem_map.mp he
      cases hkind
    · cases hkind
    · obtain ⟨step, -, rfl⟩ := List.mem_map.mp he
      cases hkind
  · cases he

end Schedule

/-! ## Three messages -/

/-- Both feeds lose half of their packets and drop the second message. -/
def lossyConfig : ReplayConfig where
  seedA := 1
  seedB := 2
  msgsPerPacket := .fixed 2
  loss _ := .bernoulli 500
  delay _ := .none
  baseRateMsgPerSec := 1000000
  heartbeatIntervalNs := 500
  guaranteeCoverage := true
  scriptedDrops := [⟨2, 2, 3⟩]
  sessionChangeAtMsg := none
  feedsEnabled := 3

end HftProj.Testkit.ReplayBuilder
