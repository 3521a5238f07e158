import HftProj.Testkit.FakeServer
import HftProj.Testkit.Heartbeats

/-!
# Two sessions

A schedule that is split at a message puts a packet in the session of its first message. The frames
are two lawful sessions when no packet reaches over the split, every packet fits a slot and the
first session has a name of its own.
-/

namespace HftProj.Testkit.ReplayBuilder

open HftProj.Lib HftProj.Protocol.Moldudp64 HftProj.Transport
open HftProj.Testkit.FakeServer (blocksOf blocksOf_buildPacket)

/-! ## Rendering -/

/-- A slot of the arena. -/
abbrev Slot := { bytes : List UInt8 // bytes.length = ARENA_SLOT_SIZE }

/-- The events rendered one after the other, each into a slot of its own. -/
@[grind =]
def renderAll (gt : List UInt8) (sched : ReplaySchedule) (session : SessionId) (arena : ℕ → Slot) :
    ℕ → List SchedEvent → Cursor → List (List UInt8)
  | _, [], _ => []
  | i, e :: events, cursor =>
      let r := renderEventStandalone gt e sched session (arena i).1 cursor
      (r.len.map fun len => r.slot.take len).toList ++
        renderAll gt sched session arena (i + 1) events r.cursor

/-- The frames of a schedule. -/
def framesOf (gt : Slice) (sched : ReplaySchedule) (session : SessionId) (arena : ℕ → Slot) :
    List (List UInt8) := renderAll gt.1 sched session arena 0 sched.events {}

/-- What is rendered are the events' own frames, whatever the slots. -/
theorem renderAll_eq {gt : List UInt8} {sched : ReplaySchedule} {session : SessionId}
    (arena : ℕ → Slot) (i : ℕ) (events : List SchedEvent) {cursor : Cursor}
    (hc : cursor.Synced gt) :
    renderAll gt sched session arena i events cursor =
      events.filterMap fun e => frameOf gt sched session e.kind := by
  induction events generalizing i cursor with
  | nil => rfl
  | cons e events ih =>
      obtain ⟨-, hsync, hframe, -⟩ := renderEventStandalone_spec sched e session (arena i).2 hc
      rw [renderAll, ih (i + 1) hsync, hframe, List.filterMap_cons]
      cases frameOf gt sched session e.kind <;> rfl

/-! ## Messages -/

/-- The messages of the ground truth. -/
def messages (gt : Slice) : List (List UInt8) := messagesFrom gt.1 gt.1.length 0

theorem lengths_messages (gt : Slice) : lengths gt = (messages gt).map List.length := by
  have hall (fuel pos : ℕ) :
      msgInfos gt.1 fuel pos = (messagesFrom gt.1 fuel pos).map List.length := by
    induction fuel generalizing pos with
    | zero => rfl
    | succ fuel ih =>
        rw [msgInfos, messagesFrom]
        split
        · rfl
        · split
          · rfl
          · rename_i hbody
            obtain ⟨-, hlen, -⟩ := drop_message (Nat.not_lt.mp hbody)
            have hfield : prefixedLen gt.1 pos = 2 + fromBeBytes (slice gt.1 pos (pos + 2)) := rfl
            rw [List.map_cons, ih]
            congr 1
            omega
  exact hall _ _

theorem messages_spec (gt : Slice) : (∀ m ∈ messages gt, m.length < 2 ^ 16) ∧
    ∃ tail, gt.1 = blockBytes (messages gt) ++ tail := messagesFrom_spec gt.1 gt.1.length 0

/-- The messages of a packet. -/
def chunk (gt : Slice) (pkt : RawPacket) : List (List UInt8) :=
  ((messages gt).drop pkt.firstMsg).take pkt.count

/-- The packet's frame fits a slot. -/
def FitsSlot (gt : Slice) (pkt : RawPacket) : Prop :=
  HEADER_LEN + (blockBytes (chunk gt pkt)).length ≤ ARENA_SLOT_SIZE

instance (gt : Slice) (pkt : RawPacket) : Decidable (FitsSlot gt pkt) :=
  inferInstanceAs (Decidable (_ ≤ _))

/-! ## The law -/

/-- The session that a frame names. -/
def sessionOf (frame : List UInt8) : Option SessionId :=
  match parseHeader frame with
  | .ok hdr => some hdr.session
  | .error _ => none

/-- The blocks that a session's frames carry. -/
def Carried (frames : List (List UInt8)) (session : SessionId) (b : MessageBlock) : Prop :=
  ∃ frame ∈ frames, sessionOf frame = some session ∧ b ∈ blocksOf frame

/-- Frames that are one session behind the other, each with its own messages from number 1 on. -/
structure TwoSessions (msgs : List (List UInt8)) (m : ℕ) (first second : SessionId)
    (frames : List (List UInt8)) : Prop where
  firstCarries : ∀ b, Carried frames first b ↔ b ∈ numberedBlocks 1 (msgs.take m)
  secondCarries : ∀ b, Carried frames second b ↔ b ∈ numberedBlocks 1 (msgs.drop m)
  inOrder : frames.Pairwise fun f g => ¬ (sessionOf f = some second ∧ sessionOf g = some first)
  announces : ∀ frame ∈ frames, ∀ hdr, parseHeader frame = .ok hdr → hdr.kind ≠ .data →
    hdr.session = first ∧ hdr.seq = m + 1 ∨ hdr.session = second ∧ hdr.seq = msgs.length - m + 1

/-- What it takes: a first session of its own, no packet over the split and none too long. -/
structure Splits (gt : Slice) (session : SessionId) (m : ℕ) (pkts : List RawPacket) : Prop where
  named : session ≠ splitSession
  whole : ∀ p ∈ pkts, p.firstMsg < m → p.firstMsg + p.count ≤ m
  fits : ∀ p ∈ pkts, FitsSlot gt p

/-- The packets before the split are released before whatever is behind it. -/
def Apart (cfg : ReplayConfig) (m : ℕ) (pkts : List RawPacket) (R : UInt64 → UInt64 → Prop) :
    Prop :=
  ∀ p ∈ pkts, p.firstMsg < m →
    (∀ q ∈ pkts, m ≤ q.firstMsg → R (baseVt cfg p) (baseVt cfg q)) ∧
      ∀ vt ∈ endVts [] (latestVt cfg pkts), R (baseVt cfg p) vt

/-! ## Frames -/

section Frames

variable {gt : Slice} {cfg : ReplayConfig} {sched : ReplaySchedule} {session : SessionId}
  {m : UInt64} {pkt : RawPacket}

/-- The session of a packet. -/
def packetSession (session : SessionId) (m : ℕ) (pkt : RawPacket) : SessionId :=
  if m ≤ pkt.firstMsg then splitSession else session

/-- The number of a packet's first message in its session. -/
def packetSeq (m : ℕ) (pkt : RawPacket) : ℕ :=
  if m ≤ pkt.firstMsg then pkt.firstMsg - m + 1 else pkt.firstMsg + 1

theorem length_messages (gt : Slice) : (messages gt).length = (lengths gt).length := by
  rw [lengths_messages, List.length_map]

theorem chunk_length (hle : pkt.firstMsg + pkt.count ≤ (messages gt).length) :
    (chunk gt pkt).length = pkt.count := by
  rw [chunk, List.length_take_of_le]
  rw [List.length_drop]
  omega

/-- A packet of the schedule renders to its messages in its session, if it fits. -/
theorem frameOf_packet (hsplit : cfg.sessionChangeAtMsg = some m)
    (hsched : sched.sessionSplit = some (m, splitSession)) (hlt : pkt.count < 2 ^ 16)
    (hle : pkt.firstMsg + pkt.count ≤ (messages gt).length) :
    frameOf gt.1 sched session (packetKind cfg pkt) =
      if FitsSlot gt pkt then
        some (buildPacket (packetSession session m.toNat pkt) (packetSeq m.toNat pkt)
          (chunk gt pkt))
      else none := by
  have hmany := lengths_length_lt gt
  rw [← length_messages] at hmany
  obtain ⟨hlens, tail, hgt⟩ := messages_spec gt
  have hcast : (UInt64.ofNat pkt.firstMsg).toNat = pkt.firstMsg :=
    UInt64.toNat_ofNat_of_lt' (by simp only [UInt64.size]; omega)
  have hcount : (UInt16.ofNat pkt.count).toNat = pkt.count := UInt16.toNat_ofNat_of_lt' hlt
  have hbody : payload gt.1 pkt.firstMsg pkt.count = some (blockBytes (chunk gt pkt)) := by
    have hpayload := payload_blocks hlens tail hle
    rwa [← hgt] at hpayload
  have hone : (1 : UInt64).toNat = 1 := rfl
  have hcompare : m ≤ UInt64.ofNat pkt.firstMsg ↔ m.toNat ≤ pkt.firstMsg := by
    rw [UInt64.le_iff_toNat_le, hcast]
  have hsession : sched.effectiveSession session (packetKind cfg pkt) =
      packetSession session m.toNat pkt := by
    rw [ReplaySchedule.effectiveSession, hsched, packetKind, packetSession]
    simp only [hcompare]
  have hseq : (packetKind cfg pkt).seq = packetSeq m.toNat pkt := by
    rw [packetKind, SchedKind.seq, packetFirstSeq, hsplit, packetSeq]
    simp only [hcompare]
    split
    · rename_i hsecond
      rw [UInt64.toNat_add, UInt64.toNat_sub_of_le _ _ (hcompare.mpr hsecond), hcast, hone]
      omega
    · rw [UInt64.toNat_add, hcast, hone]
      omega
  have hwire : (packetKind cfg pkt).wireCount = (chunk gt pkt).length := by
    rw [packetKind, SchedKind.wireCount, hcount, chunk_length hle]
  have hkind : (packetKind cfg pkt).body gt.1 = some (blockBytes (chunk gt pkt)) := by
    rw [packetKind, SchedKind.body, hcast, hcount, hbody]
  rw [frameOf, bodyOf, hkind, hsession, Option.filter_some]
  by_cases hfit : FitsSlot gt pkt
  · have hdec : decide (HEADER_LEN + (blockBytes (chunk gt pkt)).length ≤ ARENA_SLOT_SIZE) =
        true := decide_eq_true hfit
    simp only [hdec, if_pos hfit, if_true, Option.map_some, SchedKind.rest, hseq, hwire,
      buildPacket, headerBytes, List.append_assoc]
  · have hdec : decide (HEADER_LEN + (blockBytes (chunk gt pkt)).length ≤ ARENA_SLOT_SIZE) =
        false := decide_eq_false hfit
    simp only [hdec, if_neg hfit, Bool.false_eq_true, if_false, Option.map_none]

/-- A frame of messages names its session and carries its blocks. -/
theorem buildPacket_read (own : SessionId) {seq : ℕ} {msgs : List (List UInt8)}
    (h : Encodable seq msgs) :
    sessionOf (buildPacket own seq msgs) = some own ∧
      (∀ hdr, parseHeader (buildPacket own seq msgs) = .ok hdr → hdr.kind = .data) ∧
      blocksOf (buildPacket own seq msgs) = numberedBlocks seq msgs := by
  obtain ⟨hone, hmax, -, hend⟩ := id h
  have hparse : parseHeader (headerBytes own seq msgs.length ++ blockBytes msgs) =
      .ok ⟨own, seq, msgs.length⟩ :=
    parseHeader_headerBytes own (by omega) (by omega) (blockBytes msgs)
  refine ⟨?_, ?_, (blocksOf_buildPacket own h).2⟩
  · rw [sessionOf, buildPacket, hparse]
  · intro hdr hhdr
    rw [buildPacket, hparse] at hhdr
    cases hhdr
    rw [Header.kind_eq_data]
    simp only [HEARTBEAT_COUNT, EOS_COUNT]
    omega

/-- A frame without messages carries none. -/
theorem blocksOf_control {frame : List UInt8} {hdr : Header} (hhdr : parseHeader frame = .ok hdr)
    (hkind : hdr.kind ≠ .data) : blocksOf frame = [] := by
  rw [blocksOf, parse_of_control hhdr hkind]
  split
  · rename_i hdata
    split at hdata
    · cases hdata
    · split at hdata <;> cases hdata
  · rfl

end Frames

/-! ## What the frames carry -/

theorem mem_numberedBlocks {q : ℕ} {msgs : List (List UInt8)} {b : MessageBlock} :
    b ∈ numberedBlocks q msgs ↔ q ≤ b.seq ∧ msgs[b.seq - q]? = some b.data := by
  rw [← mem_number, numberedBlocks, List.mem_map]
  constructor
  · rintro ⟨⟨seq, data⟩, hmem, rfl⟩
    exact hmem
  · intro hmem
    exact ⟨(b.seq, b.data), hmem, rfl⟩

theorem mem_chunk {gt : Slice} {pkt : RawPacket} {i : ℕ} {data : List UInt8} :
    (chunk gt pkt)[i]? = some data ↔
      i < pkt.count ∧ (messages gt)[pkt.firstMsg + i]? = some data := by
  rw [chunk, List.getElem?_take, List.getElem?_drop]
  split
  · rename_i hlt
    rw [and_iff_right hlt]
  · rename_i hge
    exact ⟨nofun, fun h => absurd h.1 hge⟩

/-- Of two different elements of a list one is related to the other. -/
theorem pairwise_or {α : Type*} {R : α → α → Prop} {xs : List α} (h : xs.Pairwise R) {a b : α}
    (ha : a ∈ xs) (hb : b ∈ xs) (hne : a ≠ b) : R a b ∨ R b a := by
  have hsymm : Std.Symm fun a b => R a b ∨ R b a := ⟨fun _ _ => Or.symm⟩
  have hor : xs.Pairwise fun a b => R a b ∨ R b a := h.imp Or.inl
  exact hor.forall ha hb hne

theorem Tiled.unique {first last : ℕ} {pkts : List RawPacket} (h : Tiled last first pkts)
    {p q : RawPacket} (hp : p ∈ pkts) (hq : q ∈ pkts) {i : ℕ}
    (hpi : p.firstMsg ≤ i ∧ i < p.firstMsg + p.count)
    (hqi : q.firstMsg ≤ i ∧ i < q.firstMsg + q.count) : p = q := by
  by_contra hne
  have horder := pairwise_or h.pairwise hp hq hne
  omega

/-- The blocks of a session are those of its packets that fit. -/
structure Rendered (gt : Slice) (session : SessionId) (m : ℕ) (pkts : List RawPacket)
    (frames : List (List UInt8)) : Prop where
  carried : ∀ own b, Carried frames own b ↔ ∃ p ∈ pkts, FitsSlot gt p ∧
    packetSession session m p = own ∧ packetSeq m p ≤ b.seq ∧ b.seq - packetSeq m p < p.count ∧
      (messages gt)[p.firstMsg + (b.seq - packetSeq m p)]? = some b.data

section Carrying

variable {gt : Slice} {session : SessionId} {m : ℕ} {pkts : List RawPacket}
  {frames : List (List UInt8)}

theorem first_of_session (hnamed : session ≠ splitSession) {p : RawPacket} :
    packetSession session m p = session ↔ p.firstMsg < m := by
  rw [packetSession]
  split
  · rename_i hle
    exact iff_of_false hnamed.symm (Nat.not_lt.mpr hle)
  · rename_i hlt
    exact iff_of_true rfl (Nat.not_le.mp hlt)

theorem second_of_session (hnamed : session ≠ splitSession) {p : RawPacket} :
    packetSession session m p = splitSession ↔ m ≤ p.firstMsg := by
  rw [packetSession]
  split
  · rename_i hle
    exact iff_of_true rfl hle
  · rename_i hlt
    exact iff_of_false hnamed hlt

/-- Each session carries its own messages when no packet reaches over the split. -/
theorem Splits.carries (h : Splits gt session m pkts) (hr : Rendered gt session m pkts frames)
    (htiled : Tiled (messages gt).length 0 pkts) (hm : m ≤ (messages gt).length) :
    (∀ b, Carried frames session b ↔ b ∈ numberedBlocks 1 ((messages gt).take m)) ∧
      ∀ b, Carried frames splitSession b ↔ b ∈ numberedBlocks 1 ((messages gt).drop m) := by
  constructor
  · intro b
    rw [hr.carried, mem_numberedBlocks, List.getElem?_take]
    constructor
    · rintro ⟨p, hp, -, hown, hseq, hlt, hdata⟩
      have hfirst := (first_of_session h.named).mp hown
      have hwhole := h.whole p hp hfirst
      rw [packetSeq, if_neg (Nat.not_le.mpr hfirst)] at hseq hlt hdata
      have hindex : p.firstMsg + (b.seq - (p.firstMsg + 1)) = b.seq - 1 := by omega
      rw [if_pos (by omega), ← hindex]
      exact ⟨by omega, hdata⟩
    · rintro ⟨hone, hdata⟩
      split at hdata
      · rename_i hlt
        obtain ⟨p, hp, hfrom, hto⟩ := htiled.covers (Nat.zero_le (b.seq - 1)) (by omega)
        have hfirst : p.firstMsg < m := by omega
        have hindex : p.firstMsg + (b.seq - (p.firstMsg + 1)) = b.seq - 1 := by omega
        refine ⟨p, hp, h.fits p hp, (first_of_session h.named).mpr hfirst, ?_⟩
        rw [packetSeq, if_neg (Nat.not_le.mpr hfirst), hindex]
        exact ⟨by omega, by omega, hdata⟩
      · cases hdata
  · intro b
    rw [hr.carried, mem_numberedBlocks, List.getElem?_drop]
    constructor
    · rintro ⟨p, hp, -, hown, hseq, hlt, hdata⟩
      have hsecond := (second_of_session h.named).mp hown
      rw [packetSeq, if_pos hsecond] at hseq hlt hdata
      have hindex : p.firstMsg + (b.seq - (p.firstMsg - m + 1)) = m + (b.seq - 1) := by omega
      rw [← hindex]
      exact ⟨by omega, hdata⟩
    · rintro ⟨hone, hdata⟩
      have hlt := (List.getElem?_eq_some_iff.mp hdata).1
      obtain ⟨p, hp, hfrom, hto⟩ := htiled.covers (Nat.zero_le (m + (b.seq - 1))) hlt
      have hsecond : m ≤ p.firstMsg := by
        by_contra hfirst
        have hwhole := h.whole p hp (Nat.not_le.mp hfirst)
        omega
      have hindex : p.firstMsg + (b.seq - (p.firstMsg - m + 1)) = m + (b.seq - 1) := by omega
      refine ⟨p, hp, h.fits p hp, (second_of_session h.named).mpr hsecond, ?_⟩
      rw [packetSeq, if_pos hsecond, hindex]
      exact ⟨by omega, by omega, hdata⟩

/-- Sessions that carry their messages have packets that fit and do not reach over the split. -/
theorem splits_of_carries (hnamed : session ≠ splitSession)
    (hr : Rendered gt session m pkts frames) (htiled : Tiled (messages gt).length 0 pkts)
    (hfirst : ∀ b, Carried frames session b ↔ b ∈ numberedBlocks 1 ((messages gt).take m))
    (hsecond : ∀ b, Carried frames splitSession b ↔
      b ∈ numberedBlocks 1 ((messages gt).drop m)) : Splits gt session m pkts := by
  have hfits : ∀ p ∈ pkts, FitsSlot gt p := by
    intro p hp
    obtain ⟨-, hpos, -, hend⟩ := htiled.mem hp
    have hdata : (messages gt)[p.firstMsg]? = some (messages gt)[p.firstMsg] :=
      List.getElem?_eq_getElem (by omega)
    rcases Nat.lt_or_ge p.firstMsg m with hlt | hge
    · have hmem : (⟨p.firstMsg + 1, (messages gt)[p.firstMsg]⟩ : MessageBlock) ∈
          numberedBlocks 1 ((messages gt).take m) := by
        rw [mem_numberedBlocks, List.getElem?_take, Nat.add_sub_cancel, if_pos hlt]
        exact ⟨Nat.le_add_left 1 _, hdata⟩
      obtain ⟨q, hq, hfit, hown, hseq, hin, -⟩ := (hr.carried _ _).mp ((hfirst _).mpr hmem)
      have hqm := (first_of_session hnamed).mp hown
      rw [packetSeq, if_neg (Nat.not_le.mpr hqm)] at hseq hin
      dsimp only at hseq hin
      have hsame : p = q := htiled.unique hp hq
        (show p.firstMsg ≤ p.firstMsg ∧ p.firstMsg < p.firstMsg + p.count by omega) (by omega)
      exact hsame ▸ hfit
    · have hmem : (⟨p.firstMsg - m + 1, (messages gt)[p.firstMsg]⟩ : MessageBlock) ∈
          numberedBlocks 1 ((messages gt).drop m) := by
        rw [mem_numberedBlocks, List.getElem?_drop, Nat.add_sub_cancel, Nat.add_sub_cancel' hge]
        exact ⟨Nat.le_add_left 1 _, hdata⟩
      obtain ⟨q, hq, hfit, hown, hseq, hin, -⟩ := (hr.carried _ _).mp ((hsecond _).mpr hmem)
      have hqm := (second_of_session hnamed).mp hown
      rw [packetSeq, if_pos hqm] at hseq hin
      dsimp only at hseq hin
      have hsame : p = q := htiled.unique hp hq
        (show p.firstMsg ≤ p.firstMsg ∧ p.firstMsg < p.firstMsg + p.count by omega) (by omega)
      exact hsame ▸ hfit
  refine ⟨hnamed, ?_, hfits⟩
  intro p hp hlt
  by_contra hover
  obtain ⟨-, -, -, hend⟩ := htiled.mem hp
  have hdata : (messages gt)[m]? = some (messages gt)[m] := List.getElem?_eq_getElem (by omega)
  have hcarried : Carried frames session ⟨m + 1, (messages gt)[m]⟩ := by
    apply (hr.carried _ _).mpr
    refine ⟨p, hp, hfits p hp, (first_of_session hnamed).mpr hlt, ?_⟩
    rw [packetSeq, if_neg (Nat.not_le.mpr hlt)]
    have hindex : p.firstMsg + (m + 1 - (p.firstMsg + 1)) = m := by omega
    dsimp only
    rw [hindex]
    exact ⟨by omega, by omega, hdata⟩
  have hmem := (hfirst _).mp hcarried
  rw [mem_numberedBlocks, List.getElem?_take, Nat.add_sub_cancel, if_neg (Nat.lt_irrefl m)] at hmem
  cases hmem.2

end Carrying

/-! ## The order -/

theorem isLE_releaseVt {a b : SchedEvent} (h : (eventCmp a b).isLE = true) :
    a.releaseVt ≤ b.releaseVt := by
  have hfirst : (compare a.releaseVt.toNat b.releaseVt.toNat).isLE = true := by
    rw [eventCmp, compareLex] at h
    exact Ordering.isLE_left_of_isLE_then h
  exact UInt64.le_iff_toNat_le.mpr (Nat.isLE_compare.mp hfirst)

section Built

variable {gt : Slice} {cfg : ReplayConfig} {sched : ReplaySchedule} {session : SessionId}
  {m : UInt64} {pkts : List RawPacket} {prngA : SplitMix64}

/-- The configurations of the law: one split inside the stream and no rolling heartbeats. -/
structure Splitting (gt : Slice) (cfg : ReplayConfig) (m : UInt64) : Prop where
  undelayed : Undelayed cfg
  split : cfg.sessionChangeAtMsg = some m
  noRolling : cfg.heartbeatIntervalNs = 0
  inside : 1 ≤ m.toNat ∧ m.toNat < (messages gt).length

/-- What is built: the deliveries of the packets and what ends the feeds, sorted. -/
theorem Splitting.build (h : Splitting gt cfg m) (hpkts : packets cfg gt = some (pkts, prngA)) :
    ∃ sched, buildSchedule gt cfg = some sched ∧ sched.sessionSplit = some (m, splitSession) ∧
      Ordered sched.events ∧ sched.events.Perm (packetEvents cfg pkts prngA ++
        terminals cfg [] (latestVt cfg pkts)
          (finalNextSeq cfg (UInt64.ofNat (lengths gt).length))) := by
  have hne : lengths gt ≠ [] := by
    intro hnil
    have hlen := length_messages gt
    rw [hnil, List.length_nil] at hlen
    have hinside := h.inside.2
    omega
  have hrolling : rolling cfg.heartbeatIntervalNs (finalVt (packetEvents cfg pkts prngA)) =
      some [] := by
    rw [h.noRolling]
    rfl
  have hbuild := h.undelayed.covering.build hne hpkts
  dsimp only at hbuild
  rw [hrolling, Option.map_some] at hbuild
  refine ⟨_, hbuild, by rw [h.split]; rfl, ordered_mergeSort _, ?_⟩
  rw [← finalVt_packetEvents h.undelayed hpkts]
  exact List.mergeSort_perm _ _

theorem effective_announced (hsched : sched.sessionSplit = some (m, splitSession)) {e : SchedEvent}
    {next : UInt64} (h : announced e = some next) :
    sched.effectiveSession session e.kind = splitSession := by
  rw [ReplaySchedule.effectiveSession, hsched]
  cases hkind : e.kind with
  | packet => simp only [announced, hkind, reduceCtorEq] at h
  | heartbeat => rfl
  | endOfSession => rfl

/-- A packet that fits is a frame that can be read. -/
theorem encodable_chunk (htiled : Tiled (messages gt).length 0 pkts) {p : RawPacket} (hp : p ∈ pkts)
    (hfit : FitsSlot gt p) (m : ℕ) : Encodable (packetSeq m p) (chunk gt p) := by
  obtain ⟨-, hpos, -, hend⟩ := htiled.mem hp
  have hmany := lengths_length_lt gt
  rw [← length_messages] at hmany
  have hlen := chunk_length hend
  have hbytes := length_le_blockBytes (chunk gt p)
  have hslot : ARENA_SLOT_SIZE = 1500 := rfl
  have hhead : HEADER_LEN = 20 := rfl
  rw [FitsSlot] at hfit
  refine ⟨by omega, by omega, ?_, ?_⟩
  · intro msg hmsg
    exact Nat.le_of_lt_succ ((messages_spec gt).1 msg
      (List.mem_of_mem_drop (List.mem_of_mem_take hmsg)))
  · have hseq : packetSeq m p ≤ p.firstMsg + 1 := by
      rw [packetSeq]
      split <;> omega
    omega

theorem Splitting.tiled (hpkts : packets cfg gt = some (pkts, prngA)) :
    Tiled (messages gt).length 0 pkts := length_messages gt ▸ packets_tiled hpkts

/-- The frames of a split schedule: its packets that fit, and what ends the feeds. -/
theorem Splitting.mem_frames (h : Splitting gt cfg m) (hpkts : packets cfg gt = some (pkts, prngA))
    (hsched : sched.sessionSplit = some (m, splitSession)) {ends : List SchedEvent}
    (hperm : sched.events.Perm (packetEvents cfg pkts prngA ++ ends)) (arena : ℕ → Slot)
    (frame : List UInt8) :
    frame ∈ framesOf gt sched session arena ↔
      (∃ p ∈ pkts, FitsSlot gt p ∧ frame =
        buildPacket (packetSession session m.toNat p) (packetSeq m.toNat p) (chunk gt p)) ∨
      ∃ e ∈ ends, frameOf gt.1 sched session e.kind = some frame := by
  have htiled := Splitting.tiled hpkts
  obtain ⟨hof, hall⟩ := mem_packetEvents h.undelayed hpkts
  have hframe {p : RawPacket} (hp : p ∈ pkts) := by
    obtain ⟨-, -, hlt, hend⟩ := htiled.mem hp
    exact @frameOf_packet gt cfg sched session m p h.split hsched hlt hend
  rw [framesOf, renderAll_eq arena 0 _ Cursor.synced_start, List.mem_filterMap]
  constructor
  · rintro ⟨e, he, hrender⟩
    rcases List.mem_append.mp (hperm.mem_iff.mp he) with he | he
    · obtain ⟨p, hp, hkind, -⟩ := hof e he
      rw [hkind, hframe hp] at hrender
      split at hrender
      · rename_i hfit
        exact .inl ⟨p, hp, hfit, (Option.some.inj hrender).symm⟩
      · cases hrender
    · exact .inr ⟨e, he, hrender⟩
  · rintro (⟨p, hp, hfit, rfl⟩ | ⟨e, he, hrender⟩)
    · obtain ⟨e, he, hkind, -⟩ := hall p hp
      refine ⟨e, hperm.mem_iff.mpr (List.mem_append_left _ he), ?_⟩
      rw [hkind, hframe hp, if_pos hfit]
    · exact ⟨e, hperm.mem_iff.mpr (List.mem_append_right _ he), hrender⟩

/-- The events that end the feeds, behind the packets. -/
def endsOf (gt : Slice) (cfg : ReplayConfig) (pkts : List RawPacket) : List SchedEvent :=
  terminals cfg [] (latestVt cfg pkts) (finalNextSeq cfg (UInt64.ofNat (lengths gt).length))

theorem Splitting.next (h : Splitting gt cfg m) :
    (finalNextSeq cfg (UInt64.ofNat (lengths gt).length)).toNat =
      (messages gt).length - m.toNat + 1 := by
  have hmany := lengths_length_lt gt
  have hinside := h.inside
  rw [← length_messages] at hmany ⊢
  have hone : (1 : UInt64).toNat = 1 := rfl
  have hcast : (UInt64.ofNat (messages gt).length).toNat = (messages gt).length :=
    UInt64.toNat_ofNat_of_lt' (hmany.trans (by decide))
  have hle : m ≤ UInt64.ofNat (messages gt).length := by
    rw [UInt64.le_iff_toNat_le, hcast]
    omega
  rw [finalNextSeq, h.split]
  simp only [if_pos hle]
  rw [UInt64.toNat_add, UInt64.toNat_sub_of_le _ _ hle, hcast, hone]
  omega

/-- What ends the feeds has frames of the second session that carry nothing. -/
theorem Splitting.ends (h : Splitting gt cfg m)
    (hsched : sched.sessionSplit = some (m, splitSession)) {e : SchedEvent}
    (he : e ∈ endsOf gt cfg pkts) (session : SessionId) :
    e.releaseVt ∈ endVts [] (latestVt cfg pkts) ∧
      ∃ frame hdr, frameOf gt.1 sched session e.kind = some frame ∧
        parseHeader frame = .ok hdr ∧ hdr.session = splitSession ∧
        hdr.seq = (messages gt).length - m.toNat + 1 ∧ hdr.count = e.kind.wireCount ∧
        blocksOf frame = [] := by
  obtain ⟨hann, -, hvt⟩ := (mem_terminals _ _ _ h.undelayed.covering).1 e he
  obtain ⟨frame, hdr, hframe, hhdr, hown, hseq, hwire, hcount⟩ :=
    @frameOf_announced gt sched e _ hann session
  have hkind : hdr.kind ≠ .data := by
    rw [Ne, Header.kind_eq_data]
    exact fun hdata => hcount.elim hdata.1 hdata.2
  exact ⟨hvt, frame, hdr, hframe, hhdr, hown.trans (effective_announced hsched hann),
    hseq.trans h.next, hwire, blocksOf_control hhdr hkind⟩

theorem Splitting.rendered (h : Splitting gt cfg m) (hpkts : packets cfg gt = some (pkts, prngA))
    (hsched : sched.sessionSplit = some (m, splitSession))
    (hperm : sched.events.Perm (packetEvents cfg pkts prngA ++ endsOf gt cfg pkts))
    (arena : ℕ → Slot) :
    Rendered gt session m.toNat pkts (framesOf gt sched session arena) := by
  have htiled := Splitting.tiled hpkts
  have hread {p : RawPacket} (hp : p ∈ pkts) (hfit : FitsSlot gt p) :=
    buildPacket_read (packetSession session m.toNat p) (encodable_chunk htiled hp hfit m.toNat)
  refine ⟨fun own b => ?_⟩
  constructor
  · rintro ⟨frame, hmem, hown, hb⟩
    rcases (h.mem_frames hpkts hsched hperm arena frame).mp hmem with ⟨p, hp, hfit, rfl⟩ | ⟨e, he, hf⟩
    · obtain ⟨hsession, -, hblocks⟩ := hread hp hfit
      rw [hblocks, mem_numberedBlocks, mem_chunk] at hb
      exact ⟨p, hp, hfit, Option.some.inj (hsession.symm.trans hown), hb⟩
    · obtain ⟨-, frame', hdr, hframe, -, -, -, -, hnone⟩ := h.ends hsched he session
      obtain rfl := Option.some.inj (hframe.symm.trans hf)
      rw [hnone] at hb
      cases hb
  · rintro ⟨p, hp, hfit, hown, hb⟩
    obtain ⟨hsession, -, hblocks⟩ := hread hp hfit
    refine ⟨_, (h.mem_frames hpkts hsched hperm arena _).mpr (.inl ⟨p, hp, hfit, rfl⟩), ?_, ?_⟩
    · rw [hsession, hown]
    · rw [hblocks, mem_numberedBlocks, mem_chunk]
      exact hb

/-- Every heartbeat and every end of session announces the number behind the second session. -/
theorem Splitting.announces (h : Splitting gt cfg m) (hpkts : packets cfg gt = some (pkts, prngA))
    (hsched : sched.sessionSplit = some (m, splitSession))
    (hperm : sched.events.Perm (packetEvents cfg pkts prngA ++ endsOf gt cfg pkts))
    (arena : ℕ → Slot) :
    ∀ frame ∈ framesOf gt sched session arena, ∀ hdr, parseHeader frame = .ok hdr →
      hdr.kind ≠ .data →
        hdr.session = splitSession ∧ hdr.seq = (messages gt).length - m.toNat + 1 := by
  have htiled := Splitting.tiled hpkts
  intro frame hmem hdr hhdr hkind
  rcases (h.mem_frames hpkts hsched hperm arena frame).mp hmem with ⟨p, hp, hfit, rfl⟩ | ⟨e, he, hf⟩
  · have hdata := (buildPacket_read (packetSession session m.toNat p)
      (encodable_chunk htiled hp hfit m.toNat)).2.1
    exact absurd (hdata hdr hhdr) hkind
  · obtain ⟨-, frame', hdr', hframe, hhdr', hown, hseq, -⟩ := h.ends hsched he session
    obtain rfl := Option.some.inj (hframe.symm.trans hf)
    obtain rfl := Except.ok.inj (hhdr'.symm.trans hhdr)
    exact ⟨hown, hseq⟩

/-- An event that renders is a packet's or one of the ends. -/
theorem Splitting.event_cases (h : Splitting gt cfg m)
    (hpkts : packets cfg gt = some (pkts, prngA))
    (hsched : sched.sessionSplit = some (m, splitSession))
    (hperm : sched.events.Perm (packetEvents cfg pkts prngA ++ endsOf gt cfg pkts))
    {e : SchedEvent} (he : e ∈ sched.events) {frame : List UInt8}
    (hf : frameOf gt.1 sched session e.kind = some frame) :
    (∃ p ∈ pkts, e.releaseVt = baseVt cfg p ∧
        sessionOf frame = some (packetSession session m.toNat p)) ∨
      e.releaseVt ∈ endVts [] (latestVt cfg pkts) ∧ sessionOf frame = some splitSession := by
  have htiled := Splitting.tiled hpkts
  rcases List.mem_append.mp (hperm.mem_iff.mp he) with he | he
  · obtain ⟨p, hp, hkind, hvt⟩ := (mem_packetEvents h.undelayed hpkts).1 e he
    obtain ⟨-, -, hlt, hend⟩ := htiled.mem hp
    rw [hkind, frameOf_packet h.split hsched hlt hend] at hf
    split at hf
    · rename_i hfit
      obtain rfl := Option.some.inj hf
      exact .inl ⟨p, hp, hvt, (buildPacket_read _ (encodable_chunk htiled hp hfit _)).1⟩
    · cases hf
  · obtain ⟨hvt, frame', hdr, hframe, hhdr, hown, -⟩ := h.ends hsched he session
    obtain rfl := Option.some.inj (hframe.symm.trans hf)
    exact .inr ⟨hvt, by rw [sessionOf, hhdr, ← hown]⟩

theorem Splitting.packet_event (h : Splitting gt cfg m)
    (hpkts : packets cfg gt = some (pkts, prngA))
    (hsched : sched.sessionSplit = some (m, splitSession))
    (hperm : sched.events.Perm (packetEvents cfg pkts prngA ++ endsOf gt cfg pkts))
    {p : RawPacket} (hp : p ∈ pkts) (hfit : FitsSlot gt p) (session : SessionId) :
    ∃ e ∈ sched.events, e.releaseVt = baseVt cfg p ∧
      ∃ frame, frameOf gt.1 sched session e.kind = some frame ∧
        sessionOf frame = some (packetSession session m.toNat p) := by
  have htiled := Splitting.tiled hpkts
  obtain ⟨e, he, hkind, hvt⟩ := (mem_packetEvents h.undelayed hpkts).2 p hp
  obtain ⟨-, -, hlt, hend⟩ := htiled.mem hp
  refine ⟨e, hperm.mem_iff.mpr (List.mem_append_left _ he), hvt, _, ?_,
    (buildPacket_read _ (encodable_chunk htiled hp hfit m.toNat)).1⟩
  rw [hkind, frameOf_packet h.split hsched hlt hend, if_pos hfit]

/-- Sessions that are apart in time are apart in the frames. -/
theorem Splitting.inOrder (h : Splitting gt cfg m) (hpkts : packets cfg gt = some (pkts, prngA))
    (hsched : sched.sessionSplit = some (m, splitSession)) (hord : Ordered sched.events)
    (hperm : sched.events.Perm (packetEvents cfg pkts prngA ++ endsOf gt cfg pkts))
    (hnamed : session ≠ splitSession) (hapart : Apart cfg m.toNat pkts (· < ·))
    (arena : ℕ → Slot) :
    (framesOf gt sched session arena).Pairwise fun f g =>
      ¬ (sessionOf f = some splitSession ∧ sessionOf g = some session) := by
  rw [framesOf, renderAll_eq arena 0 _ Cursor.synced_start, List.pairwise_filterMap]
  apply hord.imp_of_mem
  intro x y hx hy hle f hf g hg hboth
  have htime := isLE_releaseVt hle
  rcases h.event_cases hpkts hsched hperm hy hg with ⟨p, hp, hvt, hown⟩ | ⟨-, hown⟩
  · have hfirst := (first_of_session hnamed).mp (Option.some.inj (hown.symm.trans hboth.2))
    rcases h.event_cases hpkts hsched hperm hx hf with ⟨q, hq, hvt', hown'⟩ | ⟨hvt', -⟩
    · have hsecond := (second_of_session hnamed).mp (Option.some.inj (hown'.symm.trans hboth.1))
      have hlt := (hapart p hp hfirst).1 q hq hsecond
      rw [← hvt, ← hvt'] at hlt
      exact UInt64.not_lt.mpr htime hlt
    · have hlt := (hapart p hp hfirst).2 _ hvt'
      rw [← hvt] at hlt
      exact UInt64.not_lt.mpr htime hlt
  · exact hnamed (Option.some.inj (hboth.2.symm.trans hown))

/-- Sessions that are apart in the frames are apart in time, up to equal times. -/
theorem Splitting.apart (h : Splitting gt cfg m) (hpkts : packets cfg gt = some (pkts, prngA))
    (hsched : sched.sessionSplit = some (m, splitSession)) (hord : Ordered sched.events)
    (hperm : sched.events.Perm (packetEvents cfg pkts prngA ++ endsOf gt cfg pkts))
    (hsplits : Splits gt session m.toNat pkts) (arena : ℕ → Slot)
    (hframes : (framesOf gt sched session arena).Pairwise fun f g =>
      ¬ (sessionOf f = some splitSession ∧ sessionOf g = some session)) :
    Apart cfg m.toNat pkts (· ≤ ·) := by
  rw [framesOf, renderAll_eq arena 0 _ Cursor.synced_start, List.pairwise_filterMap] at hframes
  intro p hp hfirst
  obtain ⟨a, ha, hvt, f, hf, hown⟩ :=
    h.packet_event hpkts hsched hperm hp (hsplits.fits p hp) session
  rw [(first_of_session hsplits.named).mpr hfirst] at hown
  have hbefore {b : SchedEvent} (hb : b ∈ sched.events) {g : List UInt8}
      (hg : frameOf gt.1 sched session b.kind = some g)
      (hsecond : sessionOf g = some splitSession) : baseVt cfg p ≤ b.releaseVt := by
    have hne : a ≠ b := by
      rintro rfl
      obtain rfl := Option.some.inj (hf.symm.trans hg)
      exact hsplits.named (Option.some.inj (hown.symm.trans hsecond))
    rcases pairwise_or (hord.and hframes) ha hb hne with hab | hba
    · rw [← hvt]
      exact isLE_releaseVt hab.1
    · exact absurd ⟨hsecond, hown⟩ (hba.2 g hg f hf)
  constructor
  · intro q hq hsecond
    obtain ⟨b, hb, hvt', g, hg, hown'⟩ :=
      h.packet_event hpkts hsched hperm hq (hsplits.fits q hq) session
    rw [(second_of_session hsplits.named).mpr hsecond] at hown'
    exact hvt' ▸ hbefore hb hg hown'
  · intro vt hvt'
    obtain ⟨e, he, -, rfl⟩ := (mem_terminals _ _ _ h.undelayed.covering).2 vt hvt'
    obtain ⟨-, g, hdr, hg, hhdr, hown', -⟩ := h.ends hsched he session
    refine hbefore (hperm.mem_iff.mpr (List.mem_append_right _ he)) hg ?_
    rw [sessionOf, hhdr, ← hown']

/-- The first session has a name of its own: the ends alone would be out of order. -/
theorem Splitting.named (h : Splitting gt cfg m)
    (hsched : sched.sessionSplit = some (m, splitSession))
    (hperm : sched.events.Perm (packetEvents cfg pkts prngA ++ endsOf gt cfg pkts))
    (arena : ℕ → Slot)
    (hframes : (framesOf gt sched session arena).Pairwise fun f g =>
      ¬ (sessionOf f = some splitSession ∧ sessionOf g = some session)) :
    session ≠ splitSession := by
  intro hsame
  let next := finalNextSeq cfg (UInt64.ofNat (lengths gt).length)
  have hmem : ∀ e ∈ terminate [] (latestVt cfg pkts) next 0, e ∈ endsOf gt cfg pkts := by
    intro e he
    rw [endsOf, terminals, List.mem_flatMap]
    refine ⟨0, List.mem_cons_self .., ?_⟩
    rw [if_pos h.undelayed.covering.feedA]
    exact he
  have hheartbeat := hmem ⟨terminalVt (latestVt cfg pkts), 0, .heartbeat next⟩
    (List.mem_cons_self ..)
  have hend := hmem ⟨eosVt (latestVt cfg pkts) 0, 0, .endOfSession next⟩
    (List.mem_cons_of_mem _ (List.mem_cons_self ..))
  obtain ⟨-, f, hdr, hf, hhdr, hown, -, hcount, -⟩ := h.ends hsched hheartbeat session
  obtain ⟨-, g, hdr', hg, hhdr', hown', -, hcount', -⟩ := h.ends hsched hend session
  have hne : f ≠ g := by
    rintro rfl
    obtain rfl := Except.ok.inj (hhdr.symm.trans hhdr')
    have hkinds : HEARTBEAT_COUNT ≠ EOS_COUNT := by decide
    exact hkinds (hcount.symm.trans hcount')
  have hfirst : sessionOf f = some splitSession := by rw [sessionOf, hhdr, ← hown]
  have hsecond : sessionOf g = some splitSession := by rw [sessionOf, hhdr', ← hown']
  have hin {e : SchedEvent} (he : e ∈ endsOf gt cfg pkts) {frame : List UInt8}
      (hframe : frameOf gt.1 sched session e.kind = some frame) :
      frame ∈ framesOf gt sched session arena := by
    rw [framesOf, renderAll_eq arena 0 _ Cursor.synced_start, List.mem_filterMap]
    exact ⟨e, hperm.mem_iff.mpr (List.mem_append_right _ he), hframe⟩
  rcases pairwise_or hframes (hin hheartbeat hf) (hin hend hg) hne with hnot | hnot
  · exact hnot ⟨hfirst, hsame ▸ hsecond⟩
  · exact hnot ⟨hsecond, hsame ▸ hfirst⟩

end Built

/-! ## When a split schedule is two lawful sessions -/

section Law

variable {gt : Slice} {cfg : ReplayConfig} {session : SessionId} {m : UInt64}
  {pkts : List RawPacket} {prngA : SplitMix64} {arena : ℕ → Slot}

/-- A schedule is built whose frames are two lawful sessions. -/
def SplitLawful (gt : Slice) (cfg : ReplayConfig) (session : SessionId) (m : UInt64)
    (arena : ℕ → Slot) : Prop :=
  ∃ sched, buildSchedule gt cfg = some sched ∧
    TwoSessions (messages gt) m.toNat session splitSession (framesOf gt sched session arena)

theorem lawful_of_splits (h : Splitting gt cfg m) (hpkts : packets cfg gt = some (pkts, prngA))
    (hsplits : Splits gt session m.toNat pkts) (hapart : Apart cfg m.toNat pkts (· < ·)) :
    SplitLawful gt cfg session m arena := by
  obtain ⟨sched, hbuild, hsched, hord, hperm⟩ := h.build hpkts
  have hrendered : Rendered gt session m.toNat pkts (framesOf gt sched session arena) :=
    h.rendered hpkts hsched hperm arena
  obtain ⟨hfirst, hsecond⟩ := hsplits.carries hrendered (Splitting.tiled hpkts) h.inside.2.le
  refine ⟨sched, hbuild, hfirst, hsecond,
    h.inOrder hpkts hsched hord hperm hsplits.named hapart arena, ?_⟩
  intro frame hframe hdr hhdr hkind
  exact .inr (h.announces hpkts hsched hperm arena frame hframe hdr hhdr hkind)

theorem splits_of_lawful (h : Splitting gt cfg m) (hpkts : packets cfg gt = some (pkts, prngA))
    (hlawful : SplitLawful gt cfg session m arena) :
    Splits gt session m.toNat pkts ∧ Apart cfg m.toNat pkts (· ≤ ·) := by
  obtain ⟨sched, hbuild, hsched, hord, hperm⟩ := h.build hpkts
  obtain ⟨sched', hbuild', htwo⟩ := hlawful
  obtain rfl := Option.some.inj (hbuild.symm.trans hbuild')
  have hnamed := h.named hsched hperm arena htwo.inOrder
  have hsplits := splits_of_carries hnamed (h.rendered hpkts hsched hperm arena)
    (Splitting.tiled hpkts) htwo.firstCarries htwo.secondCarries
  exact ⟨hsplits, h.apart hpkts hsched hord hperm hsplits arena htwo.inOrder⟩

/-- On a clock that does not wrap what is behind the split is released later. -/
theorem apart_of_unwrapped (hpkts : packets cfg gt = some (pkts, prngA))
    (hclock : Unwrapped gt cfg) (hrate : cfg.baseRateMsgPerSec ≤ 1000000000) :
    Apart cfg m.toNat pkts (· < ·) := by
  have hns : 1 ≤ (nsPerMsg cfg).toNat := by
    have hbillion : (1000000000 : UInt64).toNat = 1000000000 := rfl
    rw [nsPerMsg]
    split
    · rename_i hpos
      rw [UInt64.le_iff_toNat_le, hbillion] at hrate
      rw [UInt64.toNat_div, hbillion]
      exact Nat.div_pos hrate (UInt64.lt_iff_toNat_lt.mp hpos)
    · decide
  intro p hp hfirst
  constructor
  · intro q hq hsecond
    rw [UInt64.lt_iff_toNat_lt, baseVt_toNat hpkts hclock hp, baseVt_toNat hpkts hclock hq]
    exact Nat.mul_lt_mul_of_pos_right (by omega) hns
  · intro vt hvt
    have hle : baseVt cfg p ≤ latestVt cfg pkts :=
      ((foldl_max_le _ _ _).mp (UInt64.le_refl _)).2 _ (List.mem_map_of_mem hp)
    exact UInt64.lt_of_le_of_lt hle (lt_endVts (latestVt_eq hpkts hclock).2 vt hvt)

theorem packets_of_lawful (hlawful : SplitLawful gt cfg session m arena) :
    ∃ pkts prngA, packets cfg gt = some (pkts, prngA) := by
  obtain ⟨sched, hbuild, -⟩ := hlawful
  exact packets_of_built hbuild

end Law

/-- The frames are two lawful sessions exactly when no packet reaches over the split, every packet
fits a slot and the first session has a name of its own. On a clock that wraps, the releases of the
two sessions have to be apart besides. -/
theorem split_lawful_iff (gt : Slice) (cfg : ReplayConfig) (session : SessionId) (m : UInt64)
    (arena : ℕ → Slot) (h : Splitting gt cfg m)
    (hrate : 1 ≤ cfg.baseRateMsgPerSec ∧ cfg.baseRateMsgPerSec ≤ 1000000000) :
    (Unwrapped gt cfg → (SplitLawful gt cfg session m arena ↔
        ∃ pkts prngA, packets cfg gt = some (pkts, prngA) ∧
          Splits gt session m.toNat pkts)) ∧
      (SplitLawful gt cfg session m arena → ∃ pkts prngA,
        packets cfg gt = some (pkts, prngA) ∧ Splits gt session m.toNat pkts ∧
          Apart cfg m.toNat pkts (· ≤ ·)) ∧
      ∀ pkts prngA, packets cfg gt = some (pkts, prngA) → Splits gt session m.toNat pkts →
        Apart cfg m.toNat pkts (· < ·) → SplitLawful gt cfg session m arena := by
  refine ⟨fun hclock => ⟨?_, ?_⟩, ?_, ?_⟩
  · intro hlawful
    obtain ⟨pkts, prngA, hpkts⟩ := packets_of_lawful hlawful
    exact ⟨pkts, prngA, hpkts, (splits_of_lawful h hpkts hlawful).1⟩
  · rintro ⟨pkts, prngA, hpkts, hsplits⟩
    exact lawful_of_splits h hpkts hsplits (apart_of_unwrapped hpkts hclock hrate.2)
  · intro hlawful
    obtain ⟨pkts, prngA, hpkts⟩ := packets_of_lawful hlawful
    exact ⟨pkts, prngA, hpkts, splits_of_lawful h hpkts hlawful⟩
  · intro pkts prngA hpkts hsplits hapart
    exact lawful_of_splits h hpkts hsplits hapart

/-! ## Two messages -/

/-- Two messages split in the middle, so many a packet. -/
def halves (k : UInt16) : ReplayConfig where
  seedA := 1
  seedB := 2
  msgsPerPacket := .fixed k
  loss _ := .none
  delay _ := .none
  baseRateMsgPerSec := 1000000
  heartbeatIntervalNs := 0
  guaranteeCoverage := true
  scriptedDrops := []
  sessionChangeAtMsg := some 1
  feedsEnabled := 3

theorem halves_splitting (k : UInt16) : Splitting twoEvents (halves k) 1 := by
  have hfeeds : enabled 3 0 = true ∧ enabled 3 1 = true := by decide
  exact ⟨⟨⟨hfeeds.1, hfeeds.2, rfl⟩, fun _ => rfl⟩, rfl, rfl, by decide⟩

def firstSession : SessionId := SessionId.repeated 65

def blankSlot : Slot := ⟨List.replicate ARENA_SLOT_SIZE 0, List.length_replicate⟩

theorem split_lawful_iff_single :
    SplitLawful twoEvents (halves 1) firstSession 1 fun _ => blankSlot := by
  have hlengths : (lengths twoEvents).length = 2 := by decide
  have hns : (nsPerMsg (halves 1)).toNat = 1000 := by decide
  have hclock : Unwrapped twoEvents (halves 1) := by
    rw [Unwrapped, hlengths, hns]
    decide
  have hpkts : packets (halves 1) twoEvents = some ([⟨0, 1, true⟩, ⟨1, 1, true⟩], ⟨1⟩) := rfl
  have hiff := split_lawful_iff twoEvents (halves 1) firstSession 1 (fun _ => blankSlot)
    (halves_splitting 1) (by decide)
  exact (hiff.1 hclock).mpr ⟨_, _, hpkts, by decide, by decide, by decide⟩

/-- A packet of both messages is a packet of the first session. -/
theorem straddling_packet_mixes_sessions :
    Splitting twoEvents (halves 2) 1 ∧
      ¬ SplitLawful twoEvents (halves 2) firstSession 1 fun _ => blankSlot := by
  refine ⟨halves_splitting 2, ?_⟩
  intro hlawful
  have hpkts : packets (halves 2) twoEvents = some ([⟨0, 2, true⟩], ⟨1⟩) := rfl
  have hwhole := (splits_of_lawful (halves_splitting 2) hpkts hlawful).1.whole
  exact absurd (hwhole ⟨0, 2, true⟩ (List.mem_cons_self ..) (by decide)) (by decide)

end HftProj.Testkit.ReplayBuilder
