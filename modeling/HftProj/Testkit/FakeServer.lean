import HftProj.Transport.GroundTruth

/-!
# The retransmission server

A request names a sequence number and a count. The server looks up the message that the first
sequence number stands for and packs the messages from there on into packets of at most 1400
bytes, one message at least in each. Every sum that could wrap is checked: `none` is a sum that
left its word.
-/

namespace HftProj.Testkit.FakeServer

open HftProj.Lib HftProj.Protocol.Moldudp64
open HftProj.Transport (prefixedLen blockBytes_append blockBytes_cons_length
  length_le_blockBytes block_at)

/-! ## Packing -/

structure SessionTruth where
  sessionId : SessionId
  firstSeq : UInt64
  firstMsgIndex : UInt64
  totalMsgs : UInt64
  deriving DecidableEq

/-- A sum of 16-bit words that stays one. -/
def checkedAdd16 (a b : ℕ) : Option ℕ := if a + b < 2 ^ 16 then some (a + b) else none

/-- The scan for the first message, that many places ahead. -/
@[grind =]
def scanTo (gt : List UInt8) : ℕ → ℕ → ℕ
  | 0, offset => offset
  | n + 1, offset =>
      if gt.length < offset + 2 then offset else scanTo gt n (offset + prefixedLen gt offset)

/-- A packet under construction. -/
structure Pack where
  pkt : List UInt8
  pktCount : ℕ
  pktOffset : ℕ
  deriving DecidableEq

/-- The loop over the blocks of a packet. -/
@[grind =]
def packBlocks (gt : List UInt8) (curSeq endSeq : ℕ) : ℕ → Pack → Option Pack
  | 0, p => some p
  | fuel + 1, p => do
      let next ← checkedAdd curSeq p.pktCount
      if next < endSeq ∧ p.pktOffset + 2 ≤ gt.length then
        let blockTotal := prefixedLen gt p.pktOffset
        if gt.length < p.pktOffset + blockTotal then some p
        else if 1400 < p.pkt.length + blockTotal ∧ 0 < p.pktCount then some p
        else do
          let count ← checkedAdd16 p.pktCount 1
          packBlocks gt curSeq endSeq fuel
            { pkt := p.pkt ++ slice gt p.pktOffset (p.pktOffset + blockTotal)
              pktCount := count
              pktOffset := p.pktOffset + blockTotal }
      else some p

/-- The loop over the packets; the count is patched in behind the sequence number. -/
@[grind =]
def servePackets (gt : List UInt8) (session : SessionId) (endSeq : ℕ) :
    ℕ → (curSeq curOffset : ℕ) → Option (List (List UInt8))
  | 0, _, _ => some []
  | fuel + 1, curSeq, curOffset =>
      if curSeq < endSeq ∧ curOffset < gt.length then do
        let p ← packBlocks gt curSeq endSeq gt.length ⟨headerBytes session curSeq 0, 0, curOffset⟩
        if p.pktCount = 0 then some []
        else do
          let next ← checkedAdd curSeq p.pktCount
          let packets ← servePackets gt session endSeq fuel next p.pktOffset
          some (writeAt p.pkt 18 (toBeBytes 2 p.pktCount) :: packets)
      else some []

/-- `pack_response_packets`. -/
def packResponsePackets (gt : List UInt8) (session : SessionId) (truth : SessionTruth)
    (fromSeq : UInt64) (count : UInt16) : Option (List (List UInt8)) :=
  if count = 0 then some []
  else do
    let endSeq ← checkedAdd fromSeq.toNat count.toNat
    let target ← checkedAdd truth.firstMsgIndex.toNat (fromSeq.toNat - truth.firstSeq.toNat)
    servePackets gt session endSeq gt.length fromSeq.toNat (scanTo gt target 0)

/-! ## Answers -/

/-- The messages of a packet with their numbers. -/
def blocksOf (pkt : List UInt8) : List MessageBlock :=
  match parse pkt with
  | .ok (.data hdr blocks) => blocks.collect hdr.count
  | _ => []

/-- The messages of an answer. -/
def served (packets : List (List UInt8)) : List MessageBlock := packets.flatMap blocksOf

/-- An answer of accepted packets with consecutive numbers from the request on, each of the
session and with the message that it stands for. -/
structure Answers (truth : SessionTruth) (msgs : List (List UInt8)) (fromSeq : UInt64)
    (packets : List (List UInt8)) : Prop where
  accepted : ∀ pkt ∈ packets, ∃ parsed, parse pkt = .ok parsed
  consecutive : (served packets).map MessageBlock.seq =
    List.range' fromSeq.toNat (served packets).length
  inSession : ∀ b ∈ served packets, truth.firstSeq.toNat ≤ b.seq ∧
    b.seq < truth.firstSeq.toNat + truth.totalMsgs.toNat
  genuine : ∀ b ∈ served packets,
    msgs[truth.firstMsgIndex.toNat + (b.seq - truth.firstSeq.toNat)]? = some b.data

/-! ## The ground truth -/

section GroundTruth

variable {pre rest msgs : List (List UInt8)}

/-- The scan ends where that many messages end, or with the ground truth. -/
theorem scanTo_blocks (hlen : ∀ m ∈ pre ++ rest, m.length < 2 ^ 16) (n : ℕ) :
    scanTo (blockBytes (pre ++ rest)) n (blockBytes pre).length =
      (blockBytes (pre ++ rest.take n)).length := by
  induction n generalizing pre rest with
  | zero => rw [scanTo, List.take_zero, List.append_nil]
  | succ n ih =>
      cases rest with
      | nil => simp [scanTo]
      | cons m rest =>
          have hm : m.length < 2 ^ 16 := hlen m (by simp)
          have hnext := @ih (pre ++ [m]) rest (by simpa using hlen)
          have hstep : (blockBytes (pre ++ [m])).length =
              (blockBytes pre).length + (2 + m.length) := by
            rw [blockBytes_append, List.length_append, blockBytes_cons_length]
            rfl
          have hroom : ¬ (blockBytes (pre ++ m :: rest)).length < (blockBytes pre).length + 2 := by
            rw [blockBytes_append, List.length_append, blockBytes_cons_length]
            omega
          rw [scanTo, if_neg hroom, (block_at pre rest hm).1, ← hstep]
          simpa using hnext

theorem checkedAdd_eq {a b : ℕ} (h : a + b < 2 ^ 64) : checkedAdd a b = some (a + b) := if_pos h

/-- A packet under construction has room for every message but its first. -/
def Pack.Bounded (p : Pack) : Prop :=
  2 * p.pktCount ≤ p.pkt.length ∧ (p.pktCount ≤ 1 ∨ p.pkt.length ≤ 1400)

theorem Pack.Bounded.count {p : Pack} (h : p.Bounded) : p.pktCount ≤ 700 := by
  obtain ⟨hlen, hone | hbudget⟩ := h
  · omega
  · omega

/-- The loop over the blocks took a chunk off the front of the messages left, one at least into
an empty packet. -/
def Taken (pre rest : List (List UInt8)) (curSeq endSeq : ℕ) (p : Pack) (result : Option Pack) :
    Prop :=
  ∃ chunk tail, rest = chunk ++ tail ∧
    result = some ⟨p.pkt ++ blockBytes chunk, p.pktCount + chunk.length,
      (blockBytes (pre ++ chunk)).length⟩ ∧
    curSeq + (p.pktCount + chunk.length) ≤ endSeq ∧ p.pktCount + chunk.length ≤ 700 ∧
    (p.pktCount = 0 → rest ≠ [] → curSeq < endSeq → chunk ≠ [])

theorem Taken.nothing {curSeq endSeq : ℕ} {p : Pack} (hp : p.Bounded)
    (hoffset : p.pktOffset = (blockBytes pre).length) (hseq : curSeq + p.pktCount ≤ endSeq)
    (hdone : p.pktCount = 0 → rest ≠ [] → ¬ curSeq < endSeq) :
    Taken pre rest curSeq endSeq p (some p) := by
  refine ⟨[], rest, rfl, ?_, hseq, hp.count, fun h₀ h₁ h₂ => absurd h₂ (hdone h₀ h₁)⟩
  rw [List.append_nil, ← hoffset, List.length_nil, Nat.add_zero]
  exact congrArg (fun pkt => some (Pack.mk pkt p.pktCount p.pktOffset)) (List.append_nil p.pkt).symm

theorem packBlocks_spec {endSeq : ℕ} (hend : endSeq < 2 ^ 64) (fuel curSeq : ℕ) (p : Pack)
    (hlen : ∀ m ∈ pre ++ rest, m.length < 2 ^ 16) (hoffset : p.pktOffset = (blockBytes pre).length)
    (hseq : curSeq + p.pktCount ≤ endSeq) (hp : p.Bounded) (hfuel : rest.length ≤ fuel) :
    Taken pre rest curSeq endSeq p (packBlocks (blockBytes (pre ++ rest)) curSeq endSeq fuel p) := by
  induction fuel generalizing pre rest p with
  | zero =>
      have hnil : rest = [] := List.length_eq_zero_iff.mp (Nat.le_zero.mp hfuel)
      exact Taken.nothing hp hoffset hseq fun _ hne => absurd hnil hne
  | succ fuel ih =>
      rw [packBlocks, checkedAdd_eq (by omega), Option.bind_eq_bind, Option.bind_some]
      cases rest with
      | nil =>
          have hout : ¬ p.pktOffset + 2 ≤ (blockBytes (pre ++ [])).length := by
            rw [hoffset, List.append_nil]
            omega
          rw [if_neg fun h => hout h.2]
          exact Taken.nothing hp hoffset hseq fun _ hne => absurd rfl hne
      | cons m rest =>
          have hm : m.length < 2 ^ 16 := hlen m (by simp)
          obtain ⟨hblock, hbytes⟩ := block_at pre rest hm
          have hsize : (blockBytes (pre ++ m :: rest)).length =
              (blockBytes pre).length + (2 + m.length + (blockBytes rest).length) := by
            rw [blockBytes_append, List.length_append, blockBytes_cons_length]
          by_cases hlast : curSeq + p.pktCount < endSeq
          · rw [if_pos ⟨hlast, by omega⟩, hoffset, hblock, if_neg (by omega)]
            by_cases hbudget : 1400 < p.pkt.length + (2 + m.length) ∧ 0 < p.pktCount
            · rw [if_pos hbudget]
              exact Taken.nothing hp hoffset hseq fun hzero => absurd hzero (by omega)
            · have hcount := hp.count
              obtain ⟨hpair, hroom⟩ := hp
              have hblockLength : (blockBytes [m]).length = 2 + m.length :=
                blockBytes_cons_length m []
              have hnext : (blockBytes (pre ++ [m])).length =
                  (blockBytes pre).length + (2 + m.length) := by
                rw [blockBytes_append, List.length_append, hblockLength]
              have hsum : checkedAdd16 p.pktCount 1 = some (p.pktCount + 1) := if_pos (by omega)
              rw [if_neg hbudget, hsum, Option.bind_some, hbytes]
              obtain ⟨chunk, tail, hsplit, hresult, hle, hmax, -⟩ := @ih (pre ++ [m]) rest
                ⟨p.pkt ++ blockBytes [m], p.pktCount + 1, (blockBytes pre).length + (2 + m.length)⟩
                (by simpa using hlen) hnext.symm (by simp only; omega)
                ⟨by simp only [List.length_append]; omega,
                  by simp only [List.length_append]; omega⟩
                (Nat.le_of_succ_le_succ hfuel)
              rw [List.append_assoc, List.singleton_append] at hresult
              refine ⟨m :: chunk, tail, ?_, ?_, ?_, ?_, fun _ _ _ => List.cons_ne_nil m chunk⟩
              · rw [hsplit, List.cons_append]
              · have hpkt : p.pkt ++ blockBytes [m] ++ blockBytes chunk =
                    p.pkt ++ blockBytes (m :: chunk) := by
                  rw [List.append_assoc, ← blockBytes_append, List.singleton_append]
                have htaken : p.pktCount + 1 + chunk.length =
                    p.pktCount + (m :: chunk).length := by
                  rw [List.length_cons]
                  omega
                have hpre : pre ++ [m] ++ chunk = pre ++ m :: chunk := by simp
                rw [hresult, hpkt, htaken, hpre]
              · simp only [List.length_cons] at hle ⊢
                omega
              · simp only [List.length_cons] at hmax ⊢
                omega
          · rw [if_neg fun h => hlast h.1]
            exact Taken.nothing hp hoffset hseq fun hzero _ => by omega

/-- The packets of consecutive chunks of messages. -/
@[grind =]
def packetsFrom (session : SessionId) : ℕ → List (List (List UInt8)) → List (List UInt8)
  | _, [] => []
  | seq, chunk :: chunks =>
      buildPacket session seq chunk :: packetsFrom session (seq + chunk.length) chunks

/-- The count goes where the header has it. -/
theorem patch_count (session : SessionId) (seq count : ℕ) (body : List UInt8) :
    writeAt (headerBytes session seq 0 ++ body) 18 (toBeBytes 2 count) =
      headerBytes session seq count ++ body := by
  have hhead : (session.1 ++ toBeBytes 8 seq).length = 18 := by
    rw [List.length_append, session.2, toBeBytes_length]
  have hsplit (c : ℕ) : headerBytes session seq c ++ body =
      (session.1 ++ toBeBytes 8 seq) ++ (toBeBytes 2 c ++ body) := by
    simp [headerBytes]
  have hskip : (toBeBytes 2 0 ++ body).drop 2 = body := by
    rw [List.drop_append_of_le_length (by simp), List.drop_of_length_le (by simp), List.nil_append]
  rw [hsplit, hsplit, writeAt, List.take_left' hhead, toBeBytes_length,
    List.drop_append, hhead, List.drop_of_length_le (by omega), List.nil_append]
  rw [hskip, List.append_assoc]

variable (pre rest) in
/-- The loop over the packets serves the messages left, up to the end of the request, in chunks
that fit a packet. -/
theorem servePackets_spec (session : SessionId) {endSeq : ℕ} (hend : endSeq < 2 ^ 64) (fuel : ℕ)
    (curSeq : ℕ) (hlen : ∀ m ∈ pre ++ rest, m.length < 2 ^ 16) (hseq : curSeq ≤ endSeq)
    (hfuel : rest.length ≤ fuel) :
    ∃ chunks : List (List (List UInt8)),
      servePackets (blockBytes (pre ++ rest)) session endSeq fuel curSeq (blockBytes pre).length =
        some (packetsFrom session curSeq chunks) ∧
      chunks.flatten = rest.take (endSeq - curSeq) ∧
      ∀ chunk ∈ chunks, chunk ≠ [] ∧ chunk.length ≤ 700 := by
  induction fuel generalizing pre rest curSeq with
  | zero =>
      have hnil : rest = [] := List.length_eq_zero_iff.mp (Nat.le_zero.mp hfuel)
      exact ⟨[], rfl, by rw [hnil, List.take_nil]; rfl, nofun⟩
  | succ fuel ih =>
      rw [servePackets]
      split
      · rename_i hmore
        have hne : rest ≠ [] := by
          intro hnil
          rw [hnil, List.append_nil] at hmore
          exact Nat.lt_irrefl _ hmore.2
        have hsize : rest.length ≤ (blockBytes (pre ++ rest)).length := by
          rw [blockBytes_append, List.length_append]
          exact (length_le_blockBytes rest).trans (Nat.le_add_left _ _)
        obtain ⟨chunk, tail, hsplit, hresult, hle, hmax, hsome⟩ := packBlocks_spec hend
          (blockBytes (pre ++ rest)).length curSeq
          ⟨headerBytes session curSeq 0, 0, (blockBytes pre).length⟩ hlen rfl hseq
          ⟨Nat.zero_le _, .inl (Nat.zero_le 1)⟩ hsize
        have hchunk : chunk ≠ [] := hsome rfl hne hmore.1
        have hpos : 0 < chunk.length := List.length_pos_iff.mpr hchunk
        simp only [Nat.zero_add] at hresult hle hmax
        rw [hsplit] at hlen hfuel ⊢
        rw [List.length_append] at hfuel
        obtain ⟨chunks, hrest, hflat, hall⟩ := @ih (pre ++ chunk) tail
          (curSeq + chunk.length) (by simpa using hlen) hle (by omega)
        have hnext : checkedAdd curSeq chunk.length = some (curSeq + chunk.length) :=
          checkedAdd_eq (by omega)
        have htake : chunk.take (endSeq - curSeq) = chunk := List.take_of_length_le (by omega)
        rw [List.append_assoc] at hrest
        rw [← hsplit, hresult]
        simp only [Option.bind_eq_bind, Option.bind_some, if_neg (Nat.ne_of_gt hpos), hnext]
        rw [hsplit, hrest, Option.bind_some, patch_count]
        refine ⟨chunk :: chunks, rfl, ?_, ?_⟩
        · rw [List.flatten_cons, hflat, List.take_append, htake, Nat.sub_sub]
        · intro c hc
          rcases List.mem_cons.mp hc with rfl | hc
          · exact ⟨hchunk, hmax⟩
          · exact hall c hc
      · rename_i hdone
        refine ⟨[], rfl, ?_, nofun⟩
        rcases Nat.lt_or_ge curSeq endSeq with hlt | hge
        · have hempty : rest = [] := by
            by_contra hne
            apply hdone
            obtain ⟨m, ms, rfl⟩ := List.exists_cons_of_ne_nil hne
            rw [blockBytes_append, List.length_append, blockBytes_cons_length]
            exact ⟨hlt, by omega⟩
          rw [hempty, List.take_nil]
          rfl
        · rw [Nat.sub_eq_zero_of_le hge, List.take_zero]
          rfl

end GroundTruth

/-! ## What is served -/

section Served

variable (session : SessionId) {truth : SessionTruth} {msgs : List (List UInt8)}
  {fromSeq : UInt64} {count : UInt16}

theorem blocksOf_buildPacket {seq : ℕ} {chunk : List (List UInt8)} (h : Encodable seq chunk) :
    (∃ parsed, parse (buildPacket session seq chunk) = .ok parsed) ∧
      blocksOf (buildPacket session seq chunk) = numberedBlocks seq chunk := by
  obtain ⟨blocks, hparse, hcollect⟩ := parse_encoding session h
  refine ⟨⟨_, hparse⟩, ?_⟩
  rw [blocksOf, hparse]
  exact hcollect _ (Nat.le_refl _)

theorem numberedBlocks_append (seq : ℕ) (xs ys : List (List UInt8)) :
    numberedBlocks seq (xs ++ ys) =
      numberedBlocks seq xs ++ numberedBlocks (seq + xs.length) ys := by
  rw [numberedBlocks, number_append, List.map_append]
  rfl

/-- Packets of chunks are accepted and give the numbered messages back. -/
theorem served_packetsFrom (chunks : List (List (List UInt8))) (seq : ℕ)
    (hchunk : ∀ chunk ∈ chunks, chunk ≠ [] ∧ chunk.length ≤ 700)
    (hlen : ∀ m ∈ chunks.flatten, m.length < 2 ^ 16) (hseq : seq + chunks.flatten.length ≤ 2 ^ 64) :
    (∀ pkt ∈ packetsFrom session seq chunks, ∃ parsed, parse pkt = .ok parsed) ∧
      served (packetsFrom session seq chunks) = numberedBlocks seq chunks.flatten := by
  induction chunks generalizing seq with
  | nil => exact ⟨nofun, rfl⟩
  | cons chunk chunks ih =>
      rw [List.flatten_cons] at hlen hseq
      rw [List.length_append] at hseq
      obtain ⟨hne, hmax⟩ := hchunk chunk (List.mem_cons_self ..)
      have hpos : 0 < chunk.length := List.length_pos_iff.mpr hne
      have henc : Encodable seq chunk := ⟨hpos, by omega,
        fun m hm => Nat.le_of_lt_succ (hlen m (List.mem_append_left _ hm)), by omega⟩
      obtain ⟨hparse, hblocks⟩ := blocksOf_buildPacket session henc
      obtain ⟨hrest, hserved⟩ := ih (seq + chunk.length)
        (fun c hc => hchunk c (List.mem_cons_of_mem _ hc))
        (fun m hm => hlen m (List.mem_append_right _ hm)) (by omega)
      constructor
      · intro pkt hpkt
        rcases List.mem_cons.mp hpkt with rfl | hpkt
        · exact hparse
        · exact hrest pkt hpkt
      · rw [packetsFrom, served, List.flatMap_cons, hblocks, List.flatten_cons,
          numberedBlocks_append, ← hserved, served]

/-- The message that the server looks up for a request. -/
def SessionTruth.target (truth : SessionTruth) (fromSeq : UInt64) : ℕ :=
  truth.firstMsgIndex.toNat + (fromSeq.toNat - truth.firstSeq.toNat)

/-- The messages that there are to serve. -/
def available (truth : SessionTruth) (n : ℕ) (fromSeq : UInt64) (count : UInt16) : ℕ :=
  min count.toNat (n - truth.target fromSeq)

/-- The sums of a request stay words. -/
def Fits (truth : SessionTruth) (fromSeq : UInt64) (count : UInt16) : Prop :=
  fromSeq.toNat + count.toNat < 2 ^ 64 ∧ truth.target fromSeq < 2 ^ 64

/-- A request whose sums stay words is answered with the messages from its target on. -/
theorem packResponse_spec (hlen : ∀ m ∈ msgs, m.length < 2 ^ 16) (hcount : count ≠ 0)
    (hfits : Fits truth fromSeq count) :
    ∃ packets, packResponsePackets (blockBytes msgs) session truth fromSeq count = some packets ∧
      (∀ pkt ∈ packets, ∃ parsed, parse pkt = .ok parsed) ∧
      served packets = numberedBlocks fromSeq.toNat
        ((msgs.drop (truth.target fromSeq)).take count.toNat) := by
  have hsplit : msgs.take (truth.target fromSeq) ++ msgs.drop (truth.target fromSeq) = msgs :=
    List.take_append_drop _ _
  have hscan : scanTo (blockBytes msgs) (truth.target fromSeq) 0 =
      (blockBytes (msgs.take (truth.target fromSeq))).length :=
    @scanTo_blocks [] msgs hlen _
  obtain ⟨chunks, hserve, hflat, hchunks⟩ := servePackets_spec
    (msgs.take (truth.target fromSeq)) (msgs.drop (truth.target fromSeq)) session hfits.1
    (blockBytes msgs).length fromSeq.toNat (by rwa [hsplit])
    (Nat.le_add_right _ _)
    ((List.drop_sublist _ msgs).length_le.trans (length_le_blockBytes msgs))
  rw [Nat.add_sub_cancel_left] at hflat
  have hall : ∀ m ∈ chunks.flatten, m.length < 2 ^ 16 := by
    intro m hm
    rw [hflat] at hm
    exact hlen m (List.mem_of_mem_drop (List.mem_of_mem_take hm))
  have htotal : chunks.flatten.length ≤ count.toNat := by
    rw [hflat, List.length_take]
    exact Nat.min_le_left _ _
  obtain ⟨hparse, hserved⟩ := served_packetsFrom session chunks fromSeq.toNat hchunks
    hall (by have := hfits.1; omega)
  refine ⟨_, ?_, hparse, hserved.trans (congrArg _ hflat)⟩
  rw [packResponsePackets, if_neg hcount, checkedAdd_eq hfits.1, Option.bind_eq_bind,
    Option.bind_some, checkedAdd_eq hfits.2, Option.bind_some]
  rw [hsplit, ← hscan] at hserve
  exact hserve

/-- An answer needs sums that stay words. -/
theorem fits_of_some {gt : List UInt8} {packets : List (List UInt8)} (hcount : count ≠ 0)
    (h : packResponsePackets gt session truth fromSeq count = some packets) :
    Fits truth fromSeq count := by
  rw [packResponsePackets, if_neg hcount, Option.bind_eq_bind, Option.bind_eq_some_iff] at h
  obtain ⟨endSeq, hend, h⟩ := h
  rw [Option.bind_eq_some_iff] at h
  obtain ⟨target, htarget, -⟩ := h
  constructor
  · by_contra hout
    rw [checkedAdd, if_neg hout] at hend
    cases hend
  · by_contra hout
    rw [checkedAdd, if_neg (by rwa [SessionTruth.target] at hout)] at htarget
    cases htarget

/-- The request stays inside the session as far as there are messages to serve. -/
def Within (truth : SessionTruth) (n : ℕ) (fromSeq : UInt64) (count : UInt16) : Prop :=
  count = 0 ∨ Fits truth fromSeq count ∧ (available truth n fromSeq count = 0 ∨
    truth.firstSeq ≤ fromSeq ∧ fromSeq.toNat + available truth n fromSeq count ≤
      truth.firstSeq.toNat + truth.totalMsgs.toNat)

theorem mem_numberedBlocks {seq : ℕ} {ms : List (List UInt8)} {b : MessageBlock} :
    b ∈ numberedBlocks seq ms ↔ seq ≤ b.seq ∧ ms[b.seq - seq]? = some b.data := by
  rw [numberedBlocks, List.mem_map, ← mem_number]
  constructor
  · rintro ⟨p, hp, rfl⟩
    exact hp
  · exact fun h => ⟨(b.seq, b.data), h, rfl⟩

/-- What is served of a request that fits answers it exactly when it stays inside the session. -/
theorem answers_iff {packets : List (List UInt8)}
    (hparse : ∀ pkt ∈ packets, ∃ parsed, parse pkt = .ok parsed)
    (hserved : served packets = numberedBlocks fromSeq.toNat
      ((msgs.drop (truth.target fromSeq)).take count.toNat)) :
    Answers truth msgs fromSeq packets ↔ available truth msgs.length fromSeq count = 0 ∨
      truth.firstSeq ≤ fromSeq ∧ fromSeq.toNat + available truth msgs.length fromSeq count ≤
        truth.firstSeq.toNat + truth.totalMsgs.toNat := by
  have hlength : ((msgs.drop (truth.target fromSeq)).take count.toNat).length =
      available truth msgs.length fromSeq count := by
    rw [List.length_take, List.length_drop, available]
  have hmem (s : ℕ) (d : List UInt8) : (⟨s, d⟩ : MessageBlock) ∈ served packets ↔
      fromSeq.toNat ≤ s ∧ s - fromSeq.toNat < count.toNat ∧
        msgs[truth.target fromSeq + (s - fromSeq.toNat)]? = some d := by
    rw [hserved, mem_numberedBlocks, List.getElem?_take, List.getElem?_drop]
    by_cases hlt : s - fromSeq.toNat < count.toNat
    · simp [hlt]
    · simp [hlt]
  have hat {k : ℕ} (hk : k < available truth msgs.length fromSeq count) :
      ∃ d, (⟨fromSeq.toNat + k, d⟩ : MessageBlock) ∈ served packets := by
    rw [available] at hk
    have hin : truth.target fromSeq + k < msgs.length := by omega
    refine ⟨msgs[truth.target fromSeq + k], (hmem _ _).mpr ?_⟩
    rw [Nat.add_sub_cancel_left, List.getElem?_eq_getElem hin]
    exact ⟨Nat.le_add_right _ _, by omega, rfl⟩
  constructor
  · intro h
    rcases Nat.eq_zero_or_pos (available truth msgs.length fromSeq count) with hzero | hpos
    · exact .inl hzero
    · obtain ⟨d, hfirst⟩ := hat hpos
      obtain ⟨e, hlast⟩ := hat (Nat.sub_lt hpos Nat.one_pos)
      have hlow := (h.inSession _ hfirst).1
      have hhigh := (h.inSession _ hlast).2
      simp only [Nat.add_zero] at hlow hhigh
      exact .inr ⟨hlow, by omega⟩
  · intro h
    have hbound {s : ℕ} {d : List UInt8} (hb : (⟨s, d⟩ : MessageBlock) ∈ served packets) :
        truth.firstSeq.toNat ≤ fromSeq.toNat ∧ fromSeq.toNat ≤ s ∧
          s < truth.firstSeq.toNat + truth.totalMsgs.toNat ∧
          msgs[truth.target fromSeq + (s - fromSeq.toNat)]? = some d := by
      obtain ⟨hle, hlt, hdata⟩ := (hmem s d).mp hb
      obtain ⟨hin, -⟩ := List.getElem?_eq_some_iff.mp hdata
      have hpos : s - fromSeq.toNat < available truth msgs.length fromSeq count := by
        rw [available]
        omega
      rcases h with hzero | ⟨hfirst, htotal⟩
      · omega
      · exact ⟨hfirst, hle, by omega, hdata⟩
    refine ⟨hparse, ?_, fun b hb => ?_, fun b hb => ?_⟩
    · have hseqs := number_fst fromSeq.toNat ((msgs.drop (truth.target fromSeq)).take count.toNat)
      rw [hserved, numberedBlocks, List.map_map, List.length_map, number_length]
      exact hseqs
    · obtain ⟨h₁, h₂, h₃, -⟩ := hbound hb
      exact ⟨h₁.trans h₂, h₃⟩
    · obtain ⟨h₁, h₂, -, hdata⟩ := hbound hb
      have hindex : truth.firstMsgIndex.toNat + (b.seq - truth.firstSeq.toNat) =
          truth.target fromSeq + (b.seq - fromSeq.toNat) := by
        rw [SessionTruth.target]
        omega
      rw [hindex]
      exact hdata

/-- The server answers a request correctly and without a sum that wraps exactly when the request
stays inside the session as far as there are messages to serve. -/
theorem server_answers_iff (truth : SessionTruth) (session : SessionId)
    (msgs : List (List UInt8)) (hlen : ∀ m ∈ msgs, m.length < 2 ^ 16) (fromSeq : UInt64)
    (count : UInt16) :
    (∃ packets, packResponsePackets (blockBytes msgs) session truth fromSeq count = some packets ∧
      Answers truth msgs fromSeq packets) ↔ Within truth msgs.length fromSeq count := by
  by_cases hcount : count = 0
  · refine iff_of_true ⟨[], by rw [packResponsePackets, if_pos hcount], ?_⟩ (.inl hcount)
    exact ⟨nofun, rfl, nofun, nofun⟩
  · constructor
    · rintro ⟨packets, hpack, hanswers⟩
      have hfits := fits_of_some session hcount hpack
      obtain ⟨packets', hpack', hparse, hserved⟩ := packResponse_spec session hlen
        hcount hfits
      obtain rfl : packets = packets' := Option.some.inj (hpack.symm.trans hpack')
      exact .inr ⟨hfits, (answers_iff hparse hserved).mp hanswers⟩
    · rintro (hzero | ⟨hfits, hin⟩)
      · exact absurd hzero hcount
      · obtain ⟨packets, hpack, hparse, hserved⟩ := packResponse_spec session hlen
          hcount hfits
        exact ⟨packets, hpack, (answers_iff hparse hserved).mpr hin⟩

/-- A session of one message, number 2, in front of the messages of the next one. -/
def shortTruth : SessionTruth := ⟨SessionId.repeated 65, 2, 0, 1⟩

theorem server_answers_iff_inside :
    ∃ packets, packResponsePackets (blockBytes [[1], [2]]) shortTruth.sessionId shortTruth 2 1 =
        some packets ∧ Answers shortTruth [[1], [2]] 2 packets := by
  apply (server_answers_iff shortTruth shortTruth.sessionId [[1], [2]] (by decide) 2 1).mpr
  exact .inr ⟨⟨by decide, by decide⟩, .inr (by decide)⟩

/-- A request below the session is served with the session's first message under its own
number. -/
theorem below_session_is_mislabelled :
    ¬ ∃ packets, packResponsePackets (blockBytes [[1], [2]]) shortTruth.sessionId shortTruth 1 1 =
        some packets ∧ Answers shortTruth [[1], [2]] 1 packets := by
  rintro ⟨packets, hpack, hanswers⟩
  have hrun : packResponsePackets (blockBytes [[1], [2]]) shortTruth.sessionId shortTruth 1 1 =
      some [buildPacket shortTruth.sessionId 1 [[1]]] := by decide
  obtain rfl : [buildPacket shortTruth.sessionId 1 [[1]]] = packets :=
    Option.some.inj (hrun.symm.trans hpack)
  have hserved : (⟨1, [1]⟩ : MessageBlock) ∈ served [buildPacket shortTruth.sessionId 1 [[1]]] := by
    decide
  exact absurd (hanswers.inSession _ hserved).1 (by decide)

end Served

end HftProj.Testkit.FakeServer
