import HftProj.Testkit.ReplayBuilder

/-!
# Packetization

The packets are a partition of the messages whatever the mode. What a mode promises of their
counts holds as long as the number of messages left fits the sixteen bits that it is cast to.
-/

namespace HftProj.Testkit.ReplayBuilder

open HftProj.Lib HftProj.Protocol.Moldudp64 HftProj.Transport

/-! ## The ground truth -/

section GroundTruth

variable {pre rest msgs : List (List UInt8)}

theorem msgInfos_blocks (hlen : ∀ m ∈ pre ++ rest, m.length < 2 ^ 16) (fuel : ℕ)
    (hfuel : rest.length ≤ fuel) :
    msgInfos (blockBytes (pre ++ rest)) fuel (blockBytes pre).length = rest.map List.length := by
  induction fuel generalizing pre rest with
  | zero =>
      rw [List.length_eq_zero_iff.mp (Nat.le_zero.mp hfuel)]
      rfl
  | succ fuel ih =>
      cases rest with
      | nil =>
          rw [msgInfos, List.append_nil, if_pos (Nat.lt_add_of_pos_right (by decide))]
          rfl
      | cons m rest =>
          have hblock := (block_at pre rest (hlen m (by simp))).1
          have hfield : fromBeBytes (slice (blockBytes (pre ++ m :: rest)) (blockBytes pre).length
              ((blockBytes pre).length + 2)) = m.length := Nat.add_left_cancel hblock
          have hnext := @ih (pre ++ [m]) rest (by simpa using hlen)
            (Nat.le_of_succ_le_succ hfuel)
          have hstep : (blockBytes (pre ++ [m])).length =
              (blockBytes pre).length + (2 + m.length) := by
            rw [blockBytes_append, List.length_append, blockBytes_cons_length]
            rfl
          have hsize : (blockBytes (pre ++ m :: rest)).length =
              (blockBytes pre).length + (2 + m.length + (blockBytes rest).length) := by
            rw [blockBytes_append, List.length_append, blockBytes_cons_length]
          rw [List.append_assoc, List.singleton_append, hstep] at hnext
          rw [msgInfos, hblock, if_neg (by omega), if_neg (by omega), hfield, hnext, List.map_cons]

/-- The messages of a block area have their own lengths. -/
theorem lengths_blockBytes (hlen : ∀ m ∈ msgs, m.length < 2 ^ 16)
    (hslice : (blockBytes msgs).length < 2 ^ 63) :
    lengths ⟨blockBytes msgs, hslice⟩ = msgs.map List.length :=
  @msgInfos_blocks [] msgs hlen _ (length_le_blockBytes msgs)

end GroundTruth

/-! ## The loop over the packets -/

section Loop

variable {mode : Packetize} {left : List ℕ} {prng prng' : SplitMix64} {count : ℕ} {ok : Bool}

/-- The mode's random range is not empty, as it is for `min ≤ max < 65535`. -/
def Packetize.Drawable : Packetize → Prop
  | .fixed _ | .mtuBound _ => True
  | .seededRange lo hi => hi - lo + 1 ≠ 0

theorem mtuLoop_le (maxPayload : ℕ) (left : List ℕ) (accumulated c : ℕ) (ok : Bool) :
    (mtuLoop maxPayload left accumulated c ok).1 ≤ c + left.length := by
  induction left generalizing accumulated c ok with
  | nil => exact Nat.le_add_right c 0
  | cons len left ih =>
      rw [mtuLoop]
      split
      · exact Nat.le_add_right c _
      · apply (ih _ _ _).trans
        have hwrap : wrap16 (c + 1) ≤ c + 1 := Nat.mod_le _ _
        rw [List.length_cons]
        omega

/-- A count is never more than the messages left. -/
theorem packetCount_le (h : packetCount mode left prng = some (count, ok, prng')) :
    count ≤ left.length := by
  have hwrap : wrap16 left.length ≤ left.length := Nat.mod_le _ _
  cases mode with
  | fixed k =>
      simp only [packetCount, Option.some.injEq, Prod.mk.injEq] at h
      omega
  | mtuBound mtu =>
      simp only [packetCount, Option.some.injEq, Prod.mk.injEq] at h
      have hle := mtuLoop_le (if 20 ≤ mtu then (mtu - 20).toNat else 50) left 0 0 true
      omega
  | seededRange lo hi =>
      simp only [packetCount] at h
      split at h
      · cases h
      · simp only [Option.some.injEq, Prod.mk.injEq] at h
        omega

theorem packetCount_some (hmode : mode.Drawable) (left : List ℕ) (prng : SplitMix64) :
    ∃ r, packetCount mode left prng = some r := by
  cases mode with
  | fixed k => exact ⟨_, rfl⟩
  | mtuBound mtu => exact ⟨_, rfl⟩
  | seededRange lo hi =>
      have hrange : (hi - lo + 1).toNat ≠ 0 := fun h => hmode (UInt16.toNat_inj.mp h)
      rw [packetCount]
      simp only [if_neg hrange]
      exact ⟨_, rfl⟩

/-- The packets exist, when no draw divides by zero. -/
theorem packetize_some (hmode : mode.Drawable) (fuel : ℕ) (left : List ℕ) (firstMsg : ℕ)
    (prng : SplitMix64) : ∃ r, packetize mode fuel left firstMsg prng = some r := by
  induction fuel generalizing left firstMsg prng with
  | zero => exact ⟨_, rfl⟩
  | succ fuel ih =>
      rw [packetize]
      split
      · exact ⟨_, rfl⟩
      · obtain ⟨⟨count, ok, prng'⟩, hcount⟩ := packetCount_some hmode left prng
        obtain ⟨⟨pkts, prng''⟩, hrest⟩ := ih (left.drop (max 1 count)) (firstMsg + max 1 count) prng'
        refine ⟨(⟨firstMsg, max 1 count, ok⟩ :: pkts, prng''), ?_⟩
        simp only [hcount, hrest, Option.bind_eq_bind, Option.bind_some]

/-- A rule for all packets: no messages, and a first packet before the others. -/
theorem packetize_induction {R : ℕ → List ℕ → List RawPacket → Prop} (nil : ∀ first, R first [] [])
    (cons : ∀ (first : ℕ) (left : List ℕ) (prng prng' : SplitMix64) (count : ℕ) (ok : Bool)
      (pkts : List RawPacket), left ≠ [] → packetCount mode left prng = some (count, ok, prng') →
      R (first + max 1 count) (left.drop (max 1 count)) pkts →
      R first left (⟨first, max 1 count, ok⟩ :: pkts))
    (fuel : ℕ) {left : List ℕ} {first : ℕ} {prng prng' : SplitMix64} {pkts : List RawPacket}
    (hfuel : left.length ≤ fuel) (h : packetize mode fuel left first prng = some (pkts, prng')) :
    R first left pkts := by
  induction fuel generalizing left first prng prng' pkts with
  | zero =>
      rw [packetize] at h
      cases h
      rw [List.length_eq_zero_iff.mp (Nat.le_zero.mp hfuel)]
      exact nil first
  | succ fuel ih =>
      rw [packetize] at h
      split at h
      · rename_i hnil
        cases h
        rw [hnil]
        exact nil first
      · rename_i hne
        rw [Option.bind_eq_bind, Option.bind_eq_some_iff] at h
        obtain ⟨⟨count, ok, prng₁⟩, hcount, h⟩ := h
        simp only [Option.bind_eq_bind, Option.bind_eq_some_iff] at h
        obtain ⟨⟨rest, prng₂⟩, hrest, h⟩ := h
        cases h
        have hdrop : (left.drop (max 1 count)).length ≤ fuel := by
          rw [List.length_drop]
          omega
        exact cons first left prng prng₁ count ok rest hne hcount (ih hdrop hrest)

theorem mtuLoop_lt (maxPayload : ℕ) (left : List ℕ) (accumulated : ℕ) {c : ℕ} (hc : c < 2 ^ 16)
    (ok : Bool) : (mtuLoop maxPayload left accumulated c ok).1 < 2 ^ 16 := by
  induction left generalizing accumulated c ok with
  | nil => exact hc
  | cons len left ih =>
      rw [mtuLoop]
      split
      · exact hc
      · exact ih _ (Nat.mod_lt _ (by decide)) _

theorem packetCount_lt (h : packetCount mode left prng = some (count, ok, prng')) :
    count < 2 ^ 16 := by
  have hwrap : wrap16 left.length < 2 ^ 16 := Nat.mod_lt _ (by decide)
  cases mode with
  | fixed k =>
      simp only [packetCount, Option.some.injEq, Prod.mk.injEq] at h
      omega
  | mtuBound mtu =>
      simp only [packetCount, Option.some.injEq, Prod.mk.injEq] at h
      rw [← h.1]
      exact mtuLoop_lt _ left 0 (by decide) true
  | seededRange lo hi =>
      simp only [packetCount] at h
      split at h
      · cases h
      · simp only [Option.some.injEq, Prod.mk.injEq] at h
        omega

/-- Packets that follow each other, from the first message to the last. -/
@[grind =]
def Tiled (last : ℕ) : ℕ → List RawPacket → Prop
  | first, [] => first = last
  | first, p :: pkts =>
      p.firstMsg = first ∧ 0 < p.count ∧ p.count < 2 ^ 16 ∧ Tiled last (first + p.count) pkts

/-- The packets take the messages left in order. -/
theorem packetize_tiled (fuel : ℕ) {left : List ℕ} {first : ℕ} {pkts : List RawPacket}
    (hfuel : left.length ≤ fuel) (h : packetize mode fuel left first prng = some (pkts, prng')) :
    Tiled (first + left.length) first pkts := by
  refine packetize_induction
    (R := fun first left pkts => Tiled (first + left.length) first pkts) (fun _ => rfl) ?_ fuel
    hfuel h
  intro first left prng prng' count ok pkts hne hcount htiled
  have hle := packetCount_le hcount
  have hlt := packetCount_lt hcount
  have hleft := List.length_pos_iff.mpr hne
  have hsum : first + max 1 count + (left.drop (max 1 count)).length = first + left.length := by
    rw [List.length_drop]
    omega
  rw [hsum] at htiled
  exact ⟨rfl, by simp only; omega, by simp only; omega, htiled⟩

namespace Tiled

variable {first last : ℕ} {pkts : List RawPacket}

/-- The packets' messages, in order, are all of them. -/
theorem partition (h : Tiled last first pkts) :
    (pkts.flatMap fun p => List.range' p.firstMsg p.count) = List.range' first (last - first) ∧
      first ≤ last := by
  induction pkts generalizing first with
  | nil =>
      obtain rfl : first = last := h
      rw [Nat.sub_self]
      exact ⟨rfl, Nat.le_refl _⟩
  | cons p pkts ih =>
      obtain ⟨rfl, -, -, hrest⟩ := h
      obtain ⟨hrange, hle⟩ := ih hrest
      have hsum : last - p.firstMsg = p.count + (last - (p.firstMsg + p.count)) := by omega
      rw [List.flatMap_cons, hrange, hsum, ← List.range'_append_1]
      exact ⟨rfl, by omega⟩

theorem mem (h : Tiled last first pkts) {p : RawPacket} (hp : p ∈ pkts) :
    first ≤ p.firstMsg ∧ 0 < p.count ∧ p.count < 2 ^ 16 ∧ p.firstMsg + p.count ≤ last := by
  induction pkts generalizing first with
  | nil => cases hp
  | cons q pkts ih =>
      obtain ⟨rfl, hpos, hlt, hrest⟩ := h
      rcases List.mem_cons.mp hp with rfl | hp
      · exact ⟨Nat.le_refl _, hpos, hlt, hrest.partition.2⟩
      · obtain ⟨h₁, h₂⟩ := ih hrest hp
        exact ⟨by omega, h₂⟩

theorem pairwise (h : Tiled last first pkts) :
    pkts.Pairwise fun p q => p.firstMsg + p.count ≤ q.firstMsg := by
  induction pkts generalizing first with
  | nil => exact List.Pairwise.nil
  | cons p pkts ih =>
      obtain ⟨rfl, -, -, hrest⟩ := h
      exact List.Pairwise.cons (fun q hq => (hrest.mem hq).1) (ih hrest)

theorem covers (h : Tiled last first pkts) {i : ℕ} (hfirst : first ≤ i) (hlast : i < last) :
    ∃ p ∈ pkts, p.firstMsg ≤ i ∧ i < p.firstMsg + p.count := by
  have hin : i ∈ List.range' first (last - first) := by
    rw [List.mem_range'_1]
    omega
  rw [← h.partition.1, List.mem_flatMap] at hin
  obtain ⟨p, hp, hi⟩ := hin
  exact ⟨p, hp, List.mem_range'_1.mp hi⟩

end Tiled

end Loop

/-! ## What the modes promise -/

/-- The block lengths of a packet's messages. -/
def blockTotal (lens : List ℕ) (p : RawPacket) : ℕ :=
  (((lens.drop p.firstMsg).take p.count).map (2 + ·)).sum

/-- The counts are those of the mode, and no sixteen-bit operation lost a bit. -/
structure Honours (mode : Packetize) (lens : List ℕ) (pkts : List RawPacket) : Prop where
  counts : match mode with
    | .fixed k => ∀ p ∈ pkts.dropLast, p.count = k.toNat
    | .seededRange lo hi => ∀ p ∈ pkts.dropLast, lo.toNat ≤ p.count ∧ p.count ≤ hi.toNat
    | .mtuBound mtu => ∀ p ∈ pkts, 1 < p.count → blockTotal lens p ≤ mtu.toNat - 20
  lossless : ∀ p ∈ pkts, p.lossless = true

/-- The parameters that the modes are for. -/
def Packetize.Valid : Packetize → Prop
  | .fixed k => 1 ≤ k
  | .seededRange lo hi => 1 ≤ lo ∧ lo ≤ hi ∧ hi < 65535
  | .mtuBound mtu => 20 ≤ mtu ∧ mtu ≤ 65000

theorem range_toNat {lo hi : UInt16} (hle : lo ≤ hi) (hhi : hi < 65535) :
    (hi - lo + 1).toNat = hi.toNat - lo.toNat + 1 := by
  have hsub : (hi - lo).toNat = hi.toNat - lo.toNat := UInt16.toNat_sub_of_le hi lo hle
  have hlt : hi.toNat < 65535 := hhi
  rw [UInt16.toNat_add, hsub]
  have hone : (1 : UInt16).toNat = 1 := rfl
  omega

theorem Packetize.Valid.drawable {mode : Packetize} (h : mode.Valid) : mode.Drawable := by
  cases mode with
  | fixed k => trivial
  | mtuBound mtu => trivial
  | seededRange lo hi =>
      intro hzero
      have hrange := range_toNat h.2.1 h.2.2
      rw [hzero] at hrange
      exact absurd hrange (Nat.succ_ne_zero _).symm

/-- The loop of the byte budget takes as many messages as fit it, one at least. -/
theorem mtuLoop_spec {maxPayload : ℕ} (hmax : maxPayload ≤ 64980) (left : List ℕ)
    {accumulated c : ℕ} (hlen : ∀ len ∈ left, len ≤ 50) (htwo : 2 * c ≤ accumulated)
    (hacc : c = 0 ∧ accumulated = 0 ∨ c = 1 ∧ accumulated ≤ 52 ∨
      0 < c ∧ accumulated ≤ maxPayload) :
    ∃ n, mtuLoop maxPayload left accumulated c true = (c + n, true) ∧
      (c + n ≤ 1 ∨ accumulated + ((left.take n).map (2 + ·)).sum ≤ maxPayload ) := by
  induction left generalizing accumulated c with
  | nil =>
      refine ⟨0, rfl, ?_⟩
      simp only [List.take_nil, List.map_nil, List.sum_nil]
      omega
  | cons len left ih =>
      have hsmall : len ≤ 50 := hlen len (List.mem_cons_self ..)
      have hblock : wrap16 (2 + len) = 2 + len := Nat.mod_eq_of_lt (by omega)
      have hsum : wrap16 (accumulated + (2 + len)) = accumulated + (2 + len) :=
        Nat.mod_eq_of_lt (by omega)
      have hcount : wrap16 (c + 1) = c + 1 := Nat.mod_eq_of_lt (by omega)
      have hfit : fits16 (2 + len) = true ∧ fits16 (accumulated + (2 + len)) = true ∧
          fits16 (c + 1) = true :=
        ⟨decide_eq_true (by omega), decide_eq_true (by omega), decide_eq_true (by omega)⟩
      have hstep : mtuLoop maxPayload (len :: left) accumulated c true =
          if 0 < c ∧ maxPayload < accumulated + (2 + len) then (c, true)
          else mtuLoop maxPayload left (accumulated + (2 + len)) (c + 1) true := by
        simp only [mtuLoop, hblock, hsum, hcount, hfit.1, hfit.2.1, hfit.2.2, Bool.and_self]
      rw [hstep]
      split
      · refine ⟨0, rfl, ?_⟩
        simp only [List.take_zero, List.map_nil, List.sum_nil]
        omega
      · obtain ⟨n, hrun, hfits⟩ := @ih (accumulated + (2 + len)) (c + 1)
          (fun l hl => hlen l (List.mem_cons_of_mem _ hl)) (by omega) (by omega)
        refine ⟨n + 1, ?_, ?_⟩
        · rw [hrun, Nat.add_right_comm, Nat.add_assoc]
        · rw [List.take_succ_cons, List.map_cons, List.sum_cons]
          omega

section Modes

variable {mode : Packetize} {prng prng' : SplitMix64} {pkts : List RawPacket}

/-- Only the last packet takes all that is left. -/
theorem forall_dropLast {P : RawPacket → Prop} {p : RawPacket} (hlast : pkts ≠ [] → P p)
    (h : ∀ q ∈ pkts.dropLast, P q) : ∀ q ∈ (p :: pkts).dropLast, P q := by
  cases pkts with
  | nil => exact nofun
  | cons r rest =>
      intro q hq
      rw [List.dropLast_cons_cons] at hq
      rcases List.mem_cons.mp hq with rfl | hq
      · exact hlast (List.cons_ne_nil r rest)
      · exact h q hq

/-- The counts of a mode that casts the number of messages left, when that fits. -/
theorem packetize_counted {P : ℕ → Prop}
    (hstep : ∀ (left : List ℕ) (prng prng' : SplitMix64) (count : ℕ) (ok : Bool),
      left ≠ [] → left.length < 2 ^ 16 → packetCount mode left prng = some (count, ok, prng') →
        ok = true ∧ (max 1 count < left.length → P (max 1 count)))
    (fuel : ℕ) {left : List ℕ} {first : ℕ} (hfuel : left.length ≤ fuel)
    (hfit : left.length < 2 ^ 16)
    (h : packetize mode fuel left first prng = some (pkts, prng')) :
    (∀ p ∈ pkts.dropLast, P p.count) ∧ ∀ p ∈ pkts, p.lossless = true := by
  refine (packetize_induction
    (R := fun _ left pkts => left.length < 2 ^ 16 →
      (left = [] → pkts = []) ∧ (∀ p ∈ pkts.dropLast, P p.count) ∧ ∀ p ∈ pkts, p.lossless = true)
    (fun _ _ => ⟨fun _ => rfl, nofun, nofun⟩) ?_ fuel hfuel h hfit).2
  intro first left prng prng' count ok pkts hne hcount ih hleft
  obtain ⟨hok, hmore⟩ := hstep left prng prng' count ok hne hleft hcount
  obtain ⟨hnil, hcounts, hlossless⟩ := ih (by rw [List.length_drop]; omega)
  refine ⟨fun heq => absurd heq hne, forall_dropLast (fun hpkts => hmore ?_) hcounts, ?_⟩
  · by_contra hall
    apply hpkts
    apply hnil
    rw [List.drop_eq_nil_iff]
    exact Nat.not_lt.mp hall
  · intro p hp
    rcases List.mem_cons.mp hp with rfl | hp
    · exact hok
    · exact hlossless p hp

theorem fixed_step {k : UInt16} (hk : 1 ≤ k) (left : List ℕ) (prng prng' : SplitMix64) (count : ℕ)
    (ok : Bool) (_ : left ≠ []) (hleft : left.length < 2 ^ 16)
    (h : packetCount (.fixed k) left prng = some (count, ok, prng')) :
    ok = true ∧ (max 1 count < left.length → max 1 count = k.toNat) := by
  have hwrap : wrap16 left.length = left.length := Nat.mod_eq_of_lt hleft
  have hpos : 1 ≤ k.toNat := hk
  simp only [packetCount, hwrap, Option.some.injEq, Prod.mk.injEq] at h
  obtain ⟨hcount, hok, -⟩ := h
  refine ⟨hok ▸ decide_eq_true hleft, fun hless => ?_⟩
  omega

theorem seeded_step {lo hi : UInt16} (hmode : (Packetize.seededRange lo hi).Valid) (left : List ℕ)
    (prng prng' : SplitMix64) (count : ℕ) (ok : Bool) (_ : left ≠ [])
    (hleft : left.length < 2 ^ 16)
    (h : packetCount (.seededRange lo hi) left prng = some (count, ok, prng')) :
    ok = true ∧ (max 1 count < left.length → lo.toNat ≤ max 1 count ∧ max 1 count ≤ hi.toNat) := by
  obtain ⟨hpos, hle, hhi⟩ := hmode
  have hrange := range_toNat hle hhi
  have hwrap : wrap16 left.length = left.length := Nat.mod_eq_of_lt hleft
  have hlow : 1 ≤ lo.toNat := hpos
  have horder : lo.toNat ≤ hi.toNat := hle
  have hhigh : hi.toNat < 65535 := hhi
  have hoffset (draw : ℕ) : draw % (hi.toNat - lo.toNat + 1) < hi.toNat - lo.toNat + 1 :=
    Nat.mod_lt _ (Nat.succ_pos _)
  simp only [packetCount, hrange, if_neg (Nat.succ_ne_zero _), hwrap, Option.some.injEq,
    Prod.mk.injEq] at h
  obtain ⟨hcount, hok, -⟩ := h
  have hless := hoffset prng.nextU64.1.toNat
  have hfit : wrap16 (prng.nextU64.1.toNat % (hi.toNat - lo.toNat + 1)) =
      prng.nextU64.1.toNat % (hi.toNat - lo.toNat + 1) := Nat.mod_eq_of_lt (by omega)
  have hdraw : wrap16 (lo.toNat + prng.nextU64.1.toNat % (hi.toNat - lo.toNat + 1)) =
      lo.toNat + prng.nextU64.1.toNat % (hi.toNat - lo.toNat + 1) := Nat.mod_eq_of_lt (by omega)
  rw [hfit, hdraw] at hcount
  rw [hfit] at hok
  constructor
  · rw [← hok]
    simp only [fits16, Bool.and_eq_true, decide_eq_true_eq]
    exact ⟨⟨⟨⟨hle, by omega⟩, by omega⟩, by omega⟩, hleft⟩
  · intro hmore
    omega

/-- The packets of the byte budget. -/
theorem packetize_mtu {mtu : UInt16} (hmode : (Packetize.mtuBound mtu).Valid) (fuel : ℕ)
    {lens : List ℕ} (hlen : ∀ len ∈ lens, len ≤ 50) (hfuel : lens.length ≤ fuel)
    (h : packetize (.mtuBound mtu) fuel lens 0 prng = some (pkts, prng')) :
    Honours (.mtuBound mtu) lens pkts := by
  have hpayload : (if 20 ≤ mtu then (mtu - 20).toNat else 50) = mtu.toNat - 20 := by
    rw [if_pos hmode.1]
    exact UInt16.toNat_sub_of_le _ _ hmode.1
  have hbound : mtu.toNat ≤ 65000 := hmode.2
  have hall := packetize_induction
    (R := fun first left pkts => left = lens.drop first →
      (∀ p ∈ pkts, 1 < p.count → blockTotal lens p ≤ mtu.toNat - 20) ∧
        ∀ p ∈ pkts, p.lossless = true)
    (fun _ _ => ⟨nofun, nofun⟩) ?_ fuel hfuel h rfl
  · exact ⟨hall.1, hall.2⟩
  · intro first left prng prng' count ok pkts hne hcount ih hleft
    obtain ⟨n, hrun, hfits⟩ := @mtuLoop_spec (mtu.toNat - 20) (by omega) left 0 0
      (fun len hmem => hlen len (by rw [hleft] at hmem; exact List.mem_of_mem_drop hmem))
      (Nat.le_refl 0) (.inl ⟨rfl, rfl⟩)
    simp only [packetCount, hpayload, hrun, Nat.zero_add, Option.some.injEq,
      Prod.mk.injEq] at h hcount hfits
    obtain ⟨rfl, rfl, -⟩ := hcount
    obtain ⟨hrest, hlossless⟩ := ih (by rw [hleft, List.drop_drop])
    constructor
    · intro p hp hmany
      rcases List.mem_cons.mp hp with rfl | hp
      · simp only at hmany
        have hmax : max 1 n = n := by omega
        simp only [blockTotal, hmax, ← hleft]
        omega
      · exact hrest p hp hmany
    · intro p hp
      rcases List.mem_cons.mp hp with rfl | hp
      · rfl
      · exact hlossless p hp

/-- A mode that casts the number of messages left loses a bit of the first packet's. -/
theorem packetize_lossy (hmode : ∀ mtu, mode ≠ .mtuBound mtu) {fuel : ℕ} {left : List ℕ}
    {first : ℕ} (hlarge : 2 ^ 16 ≤ left.length) (hfuel : left.length ≤ fuel)
    (h : packetize mode fuel left first prng = some (pkts, prng')) :
    ∃ p ∈ pkts, p.lossless = false := by
  have hcast : fits16 left.length = false := decide_eq_false (Nat.not_lt.mpr hlarge)
  refine packetize_induction
    (R := fun _ left pkts => fits16 left.length = false → ∃ p ∈ pkts, p.lossless = false)
    (fun _ hnone => nomatch hnone) ?_ fuel hfuel h hcast
  intro first left prng prng' count ok pkts _ hcount _ hcast
  refine ⟨_, List.mem_cons_self .., ?_⟩
  cases mode with
  | fixed k =>
      simp only [packetCount, Option.some.injEq, Prod.mk.injEq] at hcount
      exact hcount.2.1.symm.trans hcast
  | mtuBound mtu => exact absurd rfl (hmode mtu)
  | seededRange lo hi =>
      simp only [packetCount] at hcount
      split at hcount
      · cases hcount
      · simp only [hcast, Bool.and_false, Option.some.injEq, Prod.mk.injEq] at hcount
        exact hcount.2.1.symm

end Modes

/-- The packets honour their mode exactly when it is the byte budget or the number of messages
fits sixteen bits. -/
theorem packetization_honours_mode_iff (gt : Slice) (cfg : ReplayConfig)
    (hlen : ∀ len ∈ lengths gt, len ≤ 50) (hmode : cfg.msgsPerPacket.Valid) :
    (∃ pkts prng, packets cfg gt = some (pkts, prng) ∧
      Honours cfg.msgsPerPacket (lengths gt) pkts) ↔
      (lengths gt).length < 2 ^ 16 ∨ ∃ mtu, cfg.msgsPerPacket = .mtuBound mtu := by
  obtain ⟨⟨pkts, prng⟩, hpkts⟩ := packetize_some hmode.drawable (lengths gt).length (lengths gt) 0
    ⟨cfg.seedA⟩
  constructor
  · rintro ⟨pkts', prng', hpkts', hhonours⟩
    by_contra hneither
    obtain ⟨hlarge, hnone⟩ := not_or.mp hneither
    obtain ⟨p, hp, hlossy⟩ := packetize_lossy (fun mtu heq => hnone ⟨mtu, heq⟩)
      (Nat.not_lt.mp hlarge) (Nat.le_refl _) hpkts'
    exact Bool.false_ne_true (hlossy.symm.trans (hhonours.lossless p hp))
  · intro h
    refine ⟨pkts, prng, hpkts, ?_⟩
    have hfit (hnone : ∀ mtu, cfg.msgsPerPacket ≠ .mtuBound mtu) : (lengths gt).length < 2 ^ 16 :=
      h.resolve_right fun ⟨mtu, heq⟩ => hnone mtu heq
    cases hkind : cfg.msgsPerPacket with
    | mtuBound mtu =>
        rw [hkind] at hpkts hmode
        exact packetize_mtu hmode _ hlen (Nat.le_refl _) hpkts
    | fixed k =>
        rw [hkind] at hpkts hmode hfit
        obtain ⟨hcounts, hlossless⟩ := packetize_counted (P := (· = k.toNat))
          (fixed_step hmode) _ (Nat.le_refl _) (hfit nofun) hpkts
        exact ⟨hcounts, hlossless⟩
    | seededRange lo hi =>
        rw [hkind] at hpkts hmode hfit
        obtain ⟨hcounts, hlossless⟩ := packetize_counted
          (P := fun count => lo.toNat ≤ count ∧ count ≤ hi.toNat) (seeded_step hmode) _
          (Nat.le_refl _) (hfit nofun) hpkts
        exact ⟨hcounts, hlossless⟩

/-- Both feeds, nothing lost or delayed, ten messages to a packet. -/
def plainConfig : ReplayConfig where
  seedA := 1
  seedB := 2
  msgsPerPacket := .fixed 10
  loss _ := .none
  delay _ := .none
  baseRateMsgPerSec := 1000000
  heartbeatIntervalNs := 1000000000
  guaranteeCoverage := true
  scriptedDrops := []
  sessionChangeAtMsg := none
  feedsEnabled := 3

def threeMessages : Slice := ⟨blockBytes [[7], [8], [9]], by decide⟩

theorem packetization_honours_mode_iff_three :
    ∃ pkts prng, packets plainConfig threeMessages = some (pkts, prng) ∧
      Honours (.fixed 10) (lengths threeMessages) pkts :=
  (packetization_honours_mode_iff threeMessages plainConfig (by decide)
    (show 1 ≤ (10 : UInt16) by decide)).mpr (.inl (by decide))

/-- Where a multiple of 65536 messages is left, nothing is left of the cast: the next packet has
one message. -/
theorem fixed_alone {k : UInt16} {fuel : ℕ} {left : List ℕ} {first : ℕ} {prng prng' : SplitMix64}
    {pkts : List RawPacket} (hcast : wrap16 left.length = 0) (hne : left ≠ [])
    (hfuel : left.length ≤ fuel)
    (h : packetize (.fixed k) fuel left first prng = some (pkts, prng')) :
    ∃ p rest, pkts = p :: rest ∧ p.count = 1 := by
  refine packetize_induction (R := fun _ left pkts =>
    wrap16 left.length = 0 → left ≠ [] → ∃ p rest, pkts = p :: rest ∧ p.count = 1)
    (fun _ _ hnil => absurd rfl hnil) ?_ fuel hfuel h hcast hne
  intro first left prng prng' count ok pkts _ hcount _ hcast _
  simp only [packetCount, hcast, Nat.min_zero, Option.some.injEq, Prod.mk.injEq] at hcount
  exact ⟨_, pkts, rfl, by rw [← hcount.1]; rfl⟩

theorem manyBytes : (blockBytes (List.replicate 65536 [])).length = 2 * 65536 := by
  rw [blockBytes, List.length_flatMap, List.map_replicate, List.sum_replicate_nat]
  rfl

def manyMessages : Slice := ⟨blockBytes (List.replicate 65536 []), by rw [manyBytes]; decide⟩

theorem lengths_manyMessages : lengths manyMessages = List.replicate 65536 0 := by
  rw [manyMessages, lengths_blockBytes fun m hm => by rw [List.eq_of_mem_replicate hm]; decide,
    List.map_replicate]
  rfl

/-- The first of 65536 messages is alone in its packet. -/
theorem cast_loses_count :
    (∀ len ∈ lengths manyMessages, len ≤ 50) ∧ ¬ ∃ pkts prng,
      packets plainConfig manyMessages = some (pkts, prng) ∧
        Honours (.fixed 10) (lengths manyMessages) pkts := by
  refine ⟨?_, ?_⟩
  · rw [lengths_manyMessages]
    exact fun len hlen => by rw [List.eq_of_mem_replicate hlen]; decide
  · rintro ⟨pkts, prng, hpkts, hhonours⟩
    rw [packets, lengths_manyMessages] at hpkts
    have hfuel : (List.replicate 65536 0).length ≤ (List.replicate 65536 0).length :=
      Nat.le_refl _
    obtain ⟨p, rest, rfl, hone⟩ := fixed_alone (by rw [List.length_replicate]; rfl)
      (fun hnil => by
        have hlength := congrArg List.length hnil
        rw [List.length_replicate] at hlength
        cases hlength) hfuel hpkts
    obtain ⟨hrange, -⟩ := (packetize_tiled _ hfuel hpkts).partition
    have hmore : rest ≠ [] := by
      rintro rfl
      have hlength := congrArg List.length hrange
      rw [List.length_replicate, List.length_range', List.flatMap_cons, List.flatMap_nil,
        List.append_nil, List.length_range', hone] at hlength
      cases hlength
    have hten := hhonours.counts p (by
      obtain ⟨q, rest', rfl⟩ := List.exists_cons_of_ne_nil hmore
      rw [List.dropLast_cons_cons]
      exact List.mem_cons_self ..)
    rw [hone] at hten
    cases hten

end HftProj.Testkit.ReplayBuilder
