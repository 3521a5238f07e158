import HftProj.Testkit.Registers

/-!
# The pull resolve

One pass over the stream against the order cache. Each message pushes a token; an absent
reference is an anomaly. The cache stands for a register file whose entry at reference 0 is
not to be trusted, since 0 marks an empty slot.
-/

namespace HftProj.Testkit.SigFabric

open HftProj.Lib
open HftProj.Protocol

/-- The state of the pass: the cache, the token columns and the counts. -/
structure Pull where
  cache : OrderCache
  tokens : List Token
  anomalies : ℕ
  clamps : ℕ
  zeroRemKeeps : ℕ

namespace Pull

def new : Pull := ⟨.new 16, [], 0, 0, 0⟩

/-- An absent reference: no token, and the cache as the probe left it. -/
def anomaly (s : Pull) (cache : OrderCache) : Pull :=
  { s with
    cache := cache
    tokens := s.tokens ++ [.empty]
    anomalies := s.anomalies + 1 }

def push (s : Pull) (cache : OrderCache) (token : Token) : Pull :=
  { s with cache := cache, tokens := s.tokens ++ [token] }

/-- The generator table. -/
def resolve (s : Pull) (pos loc : ℕ) : Msg → Except Fault Pull
  | .add oref side shares price => do
      let cache ← s.cache.insert oref shares price loc side
      return s.push cache (.volume 0 0 (sideAsk side) (BitVec.ofNat 64 shares))
  | .executed oref q => do
      let (entry, cache) ← s.cache.probe oref
      match entry with
      | some (_, side, rem, rpx) =>
          let eff := min q rem
          let nrem := rem - q
          let clamps := if q > rem then s.clamps + 1 else s.clamps
          let keeps := if q > rem ∧ nrem = 0 then s.zeroRemKeeps + 1 else s.zeroRemKeeps
          let cache ← cache.setRem oref nrem
          return { s with clamps := clamps, zeroRemKeeps := keeps }.push cache
            (.volume pos rpx (sideAsk side) (-BitVec.ofNat 64 eff))
      | none => return s.anomaly cache
  | .executedPx oref q printable execPx => do
      let (entry, cache) ← s.cache.probe oref
      match entry with
      | some (_, side, rem, _) =>
          let eff := min q rem
          let nrem := rem - q
          let clamps := if q > rem then s.clamps + 1 else s.clamps
          let cache ← cache.setRem oref nrem
          return { s with clamps := clamps }.push cache
            (.volume (if isPrint printable then pos else 0)
              (if isPrint printable then execPx else 0) (sideAsk side) (-BitVec.ofNat 64 eff))
      | none => return s.anomaly cache
  | .cancel oref q => do
      let (entry, cache) ← s.cache.probe oref
      match entry with
      | some (_, side, rem, _) =>
          let eff := min q rem
          let clamps := if q > rem then s.clamps + 1 else s.clamps
          let cache ← cache.setRem oref (rem - eff)
          return { s with clamps := clamps }.push cache
            (.volume 0 0 (sideAsk side) (-BitVec.ofNat 64 eff))
      | none => return s.anomaly cache
  | .delete oref => do
      let (entry, cache) ← s.cache.probe oref
      match entry with
      | some (_, side, rem, _) =>
          let cache ← cache.erase oref
          return s.push cache (.volume 0 0 (sideAsk side) (-BitVec.ofNat 64 rem))
      | none => return s.anomaly cache
  | .replace oref nref nq npx => do
      let (entry, cache) ← s.cache.probe oref
      match entry with
      | some (_, side, rem, _) =>
          let cache ← cache.erase oref
          let cache ← cache.insert nref nq npx loc side
          return s.push cache
            (.volume 0 0 (sideAsk side) (BitVec.ofNat 64 nq - BitVec.ofNat 64 rem))
      | none => return s.anomaly cache
  | .print price => return s.push s.cache ⟨pos, price, 0, 0⟩
  | .other => return s.push s.cache .empty

/-- One unit of the stream; one with no type header is skipped. -/
def step (s : Pull) (u : ℕ × List UInt8) : Except Fault Pull :=
  if u.2.length < 3 then .ok s
  else do
    let m ← decode u.2
    s.resolve u.1 (beAt u.2 1 2) m

end Pull

def resolvePull (bodies : List (List UInt8)) : Except Fault Pull :=
  (stream bodies).foldlM Pull.step Pull.new

/-! ## The cache as a register file -/

/-- What the resolve stage reads of an order. -/
def Order.register (o : Order) : Register := ⟨sideAsk o.side, o.px, o.rem⟩

/-- The cache holds the registers of the file whose reference is not 0, after `k` messages;
its count runs ahead by the births of reference 0. -/
def Mirrors (c : OrderCache) (f : RegisterFile) (k : ℕ) : Prop :=
  ∃ b z, OrderCache.Stands c b ∧ OrderCache.Counted c b z ∧
    (∀ id ≠ 0, f id = (b id).map Order.register) ∧ (f 0 ≠ none → 0 ≤ z) ∧
    (OrderCache.liveIds b).ncard ≤ k ∧ z ≤ k

/-- The register that a probe's answer shows. -/
def shown : Option (ℕ × ℕ × ℕ × ℕ) → Option Register :=
  Option.map fun (_, side, rem, px) => ⟨sideAsk side, px, rem⟩

namespace Mirrors

variable {c : OrderCache} {f : RegisterFile} {k : ℕ}

theorem mono {k' : ℕ} (h : Mirrors c f k) (hk : k ≤ k') : Mirrors c f k' := by
  obtain ⟨b, z, hstands, hcounted, hfile, hzero, hcard, hz⟩ := h
  exact ⟨b, z, hstands, hcounted, hfile, hzero, by omega, by omega⟩

theorem new : Mirrors (.new 16) (fun _ => none) 0 := by
  refine ⟨_, 0, OrderCache.new_stands, OrderCache.new_counted, fun _ _ => rfl,
    fun hlive => absurd rfl hlive, ?_, le_refl _⟩
  simp [OrderCache.liveIds]

/-- A probe shows the register of a non-zero reference, and always something for 0. -/
theorem probe (h : Mirrors c f k) (id : ℕ) :
    ∃ r c', c.probe id = .ok (r, c') ∧ Mirrors c' f k ∧ c'.len = c.len ∧
      (id ≠ 0 → shown r = f id) ∧ (id = 0 → shown r ≠ none) := by
  obtain ⟨b, z, hstands, hcounted, hfile, hzero, hcard, hz⟩ := h
  obtain ⟨r, c', hrun, hstands', hcap, hlen, hr, hr₀⟩ :=
    OrderCache.probe_spec hstands (hcounted.room hstands) id
  refine ⟨r, c', hrun, ⟨b, z, hstands', hcounted.of_same hcap hlen rfl, hfile, hzero, hcard, hz⟩,
    hlen, fun hid => ?_, fun hid hnone => hr₀ hid (Option.map_eq_none_iff.mp hnone)⟩
  rw [hr hid, hfile id hid, shown, Option.map_map]
  rfl

theorem insert (h : Mirrors c f k) (id rem px loc side : ℕ) :
    (c.insert id rem px loc side = .error .capacityOverflow ∧ 2 ^ 57 ≤ k) ∨
    ∃ c', c.insert id rem px loc side = .ok c' ∧
      Mirrors c' (Function.update f id (some ⟨sideAsk side, px, rem⟩)) (k + 1) := by
  obtain ⟨b, z, hstands, hcounted, hfile, hzero, hcard, hz⟩ := h
  rcases OrderCache.insert_spec hstands hcounted id ⟨side, loc, px, rem⟩ with
    ⟨hrun, hbig⟩ | ⟨c', z₀, hrun, hstands', hz₀, hcounted'⟩
  · exact Or.inl ⟨hrun, by omega⟩
  · refine Or.inr ⟨c', hrun, _, _, hstands', hcounted', fun id' hid' => ?_, ?_, ?_, ?_⟩
    · rw [Function.update_apply, Function.update_apply]
      split
      · rfl
      · exact hfile id' hid'
    · have hlow := hcounted'.low
      rw [Function.update_apply]
      split
      · next heq =>
          intro _
          rw [if_pos heq.symm] at hlow ⊢
          have hlow' := hcounted.low
          omega
      · next hne =>
          intro hlive
          rw [if_neg (Ne.symm hne)]
          have := hzero hlive
          omega
    · have hadd := OrderCache.ncard_apply_le hcounted.finite (.insert id ⟨side, loc, px, rem⟩)
      exact hadd.trans (by omega)
    · split <;> omega

theorem setRem (h : Mirrors c f k) (id rem : ℕ) {v : Option Register}
    (hv : id ≠ 0 → v = (f id).map fun r => { r with rem := rem }) (hlive : id = 0 → f 0 ≠ none) :
    ∃ c', c.setRem id rem = .ok c' ∧ Mirrors c' (Function.update f id v) k := by
  obtain ⟨b, z, hstands, hcounted, hfile, hzero, hcard, hz⟩ := h
  obtain ⟨c', hrun, hstands', hcap, hlen⟩ :=
    OrderCache.setRem_spec hstands (hcounted.room hstands) id rem
  have hids := OrderCache.liveIds_setRem b id rem
  refine ⟨c', hrun, _, z, hstands', hcounted.of_same hcap hlen hids, fun id' hid' => ?_,
    fun hlive' => ?_, ?_, hz⟩
  · rw [Function.update_apply, Function.update_apply]
    split
    · next heq =>
        rw [hv (heq ▸ hid'), hfile id (heq ▸ hid'), Option.map_map, Option.map_map]
        rfl
    · exact hfile id' hid'
  · rw [Function.update_apply] at hlive'
    split at hlive'
    · next heq => exact hzero (hlive heq.symm)
    · exact hzero hlive'
  · rwa [hids]

theorem erase (h : Mirrors c f k) (id : ℕ) (hlive : id = 0 → f 0 ≠ none) :
    ∃ c', c.erase id = .ok c' ∧ Mirrors c' (Function.update f id none) k := by
  obtain ⟨b, z, hstands, hcounted, hfile, hzero, hcard, hz⟩ := h
  obtain ⟨c', hrun, hstands', hcap, hlen⟩ := OrderCache.erase_spec hstands hcounted id
  have hcounted' := hcounted.erase hstands (fun hid => hzero (hlive hid)) hcap hlen
  refine ⟨c', hrun, _, _, hstands', hcounted', fun id' hid' => ?_, fun hlive' => ?_, ?_, ?_⟩
  · rw [Function.update_apply, Function.update_apply]
    split
    · rfl
    · exact hfile id' hid'
  · rw [Function.update_apply] at hlive'
    split at hlive'
    · exact absurd rfl hlive'
    · next hne =>
        rw [if_neg (Ne.symm hne), sub_zero]
        exact hzero hlive'
  · rw [OrderCache.liveIds_erase]
    exact (Set.ncard_le_ncard Set.sdiff_subset hcounted.finite).trans hcard
  · split <;> omega

end Mirrors

namespace Pull

/-- The counts and the columns take on the effect of a message. -/
def Takes (s s' : Pull) (e : Effect) : Prop :=
  s'.tokens = s.tokens ++ [e.token] ∧ s'.anomalies = s.anomalies + e.anomalies ∧
    s'.clamps = s.clamps + e.clamps ∧ s'.zeroRemKeeps = s.zeroRemKeeps + e.zeroRemKeeps

theorem bind_ok {ε α β : Type} (a : α) (g : α → Except ε β) : (Except.ok a >>= g) = g a := rfl

theorem bind_error {ε α β : Type} (e : ε) (g : α → Except ε β) :
    (Except.error e >>= g) = .error e := rfl

theorem pure_ok {ε α : Type} (a : α) : (pure a : Except ε α) = .ok a := rfl

variable {s : Pull} {f : RegisterFile} {k oref : ℕ} {m : Msg}

/-- A reference that the probe misses is an anomaly, whatever the type. -/
theorem resolve_absent {c : OrderCache} (pos loc : ℕ) (href : m.ref = some oref)
    (hprobe : s.cache.probe oref = .ok (none, c)) : s.resolve pos loc m = .ok (s.anomaly c) := by
  cases m <;> cases href <;> simp only [resolve, hprobe] <;> rfl

theorem takes_reduction {cache : OrderCache} (r : Register) (q sv pv keeps : ℕ) :
    s.Takes ({ s with
      clamps := if q > r.rem then s.clamps + 1 else s.clamps
      zeroRemKeeps := s.zeroRemKeeps + if q > r.rem then keeps else 0 }.push cache
        (.volume sv pv r.ask (-BitVec.ofNat 64 (min q r.rem)))) (.reduction r q sv pv keeps) := by
  refine ⟨rfl, rfl, ?_, rfl⟩
  show (if q > r.rem then s.clamps + 1 else s.clamps) = s.clamps + if q > r.rem then 1 else 0
  split <;> rfl

/-- A reference that the probe hits. -/
theorem resolve_hit (pos loc : ℕ) {l side rem px : ℕ} {c : OrderCache}
    (href : m.ref = some oref) (hprobe : s.cache.probe oref = .ok (some (l, side, rem, px), c))
    (hc : Mirrors c f k) (hfile : oref ≠ 0 → f oref = some ⟨sideAsk side, px, rem⟩)
    (hzero : oref = 0 → f 0 ≠ none) :
    (s.resolve pos loc m = .error .capacityOverflow ∧ 2 ^ 57 ≤ k) ∨
    ∃ s', s.resolve pos loc m = .ok s' ∧
      Mirrors s'.cache (m.next f (some ⟨sideAsk side, px, rem⟩)) (k + 1) ∧
      s.Takes s' (m.effect pos (some ⟨sideAsk side, px, rem⟩)) := by
  have hset : ∀ q, ∃ c', c.setRem oref (rem - q) = .ok c' ∧ Mirrors c'
      (Function.update f oref (some (Register.reduce q ⟨sideAsk side, px, rem⟩))) (k + 1) := by
    intro q
    obtain ⟨c', hrun, hc'⟩ := hc.setRem oref (rem - q)
      (v := some (Register.reduce q ⟨sideAsk side, px, rem⟩))
      (fun hid => by rw [hfile hid]; rfl) hzero
    exact ⟨c', hrun, hc'.mono (Nat.le_succ k)⟩
  have hnone : ∀ q, s.zeroRemKeeps + (if q > rem then 0 else 0) = s.zeroRemKeeps := by
    intro q
    rw [ite_self, Nat.add_zero]
  obtain ⟨c₁, herase, hc₁⟩ := hc.erase oref hzero
  cases m with
  | add _ _ _ _ => cases href
  | print _ => cases href
  | other => cases href
  | executed _ q =>
      cases href
      obtain ⟨c', hrun, hc'⟩ := hset q
      refine Or.inr ⟨_, ?_, hc', takes_reduction ⟨sideAsk side, px, rem⟩ q pos px 1⟩
      have hkeeps : (if q > rem ∧ rem - q = 0 then s.zeroRemKeeps + 1 else s.zeroRemKeeps) =
          s.zeroRemKeeps + if q > rem then 1 else 0 := by
        split_ifs <;> omega
      simp only [resolve, hprobe, hrun, bind_ok, pure_ok, hkeeps]
  | executedPx _ q printable execPx =>
      cases href
      obtain ⟨c', hrun, hc'⟩ := hset q
      refine Or.inr ⟨_, ?_, hc', takes_reduction ⟨sideAsk side, px, rem⟩ q _ _ 0⟩
      simp only [resolve, hprobe, hrun, bind_ok, pure_ok, hnone]
  | cancel _ q =>
      cases href
      obtain ⟨c', hrun, hc'⟩ := hset q
      refine Or.inr ⟨_, ?_, hc', takes_reduction ⟨sideAsk side, px, rem⟩ q 0 0 0⟩
      have heff : rem - min q rem = rem - q := by omega
      simp only [resolve, hprobe, bind_ok, pure_ok, heff, hrun, hnone]
  | delete _ =>
      cases href
      refine Or.inr ⟨s.push c₁ (.volume 0 0 (sideAsk side) (-BitVec.ofNat 64 rem)), ?_,
        hc₁.mono (Nat.le_succ k), rfl, rfl, rfl, rfl⟩
      simp only [resolve, hprobe, herase, bind_ok, pure_ok]
  | replace _ nref nq npx =>
      cases href
      rcases hc₁.insert nref nq npx loc side with ⟨hfull, hbig⟩ | ⟨c', hrun, hc'⟩
      · refine Or.inl ⟨?_, hbig⟩
        simp only [resolve, hprobe, herase, hfull, bind_ok, bind_error]
      · refine Or.inr ⟨s.push c' (.volume 0 0 (sideAsk side)
          (BitVec.ofNat 64 nq - BitVec.ofNat 64 rem)), ?_, hc', rfl, rfl, rfl, rfl⟩
        simp only [resolve, hprobe, herase, hrun, bind_ok, pure_ok]

/-- A message resolves against the register that its reference hits; at reference 0 that is
whatever the probe finds, and never nothing. -/
theorem resolve_spec (h : Mirrors s.cache f k) (pos loc : ℕ) (m : Msg)
    (hzero : m.ref = some 0 → f 0 ≠ none) :
    (s.resolve pos loc m = .error .capacityOverflow ∧ 2 ^ 57 ≤ k ∧
      ∀ oref, m.ref = some oref → f oref ≠ none) ∨
    ∃ s' hit, s.resolve pos loc m = .ok s' ∧ Mirrors s'.cache (m.next f hit) (k + 1) ∧
      s.Takes s' (m.effect pos hit) ∧ (m.ref ≠ some 0 → hit = m.hit f) ∧
      (m.ref = some 0 → hit ≠ none) ∧
      (m.ref ≠ none → hit = none → s'.cache.len = s.cache.len) := by
  cases href : m.ref with
  | none =>
      have hhit : m.hit f = none := by rw [Msg.hit, href, Option.bind_none]
      have hrest : ((none : Option ℕ) ≠ some 0 → none = m.hit f) ∧
          ((none : Option ℕ) = some 0 → (none : Option Register) ≠ none) :=
        ⟨fun _ => hhit.symm, fun h₀ => by cases h₀⟩
      cases m with
      | add oref side shares price =>
          rcases h.insert oref shares price loc side with ⟨hrun, hbig⟩ | ⟨c', hrun, hc'⟩
          · refine Or.inl ⟨?_, hbig, fun oref h₀ => by cases h₀⟩
            simp only [resolve, hrun, bind_error]
          · refine Or.inr ⟨s.push c' (.volume 0 0 (sideAsk side) (BitVec.ofNat 64 shares)), none,
              ?_, hc', ⟨rfl, rfl, rfl, rfl⟩, hrest.1, hrest.2, fun hne => absurd rfl hne⟩
            simp only [resolve, hrun, bind_ok, pure_ok]
      | print price =>
          exact Or.inr ⟨_, none, rfl, h.mono (Nat.le_succ k), ⟨rfl, rfl, rfl, rfl⟩, hrest.1,
            hrest.2, fun hne => absurd rfl hne⟩
      | other =>
          exact Or.inr ⟨_, none, rfl, h.mono (Nat.le_succ k), ⟨rfl, rfl, rfl, rfl⟩, hrest.1,
            hrest.2, fun hne => absurd rfl hne⟩
      | executed _ _ => cases href
      | executedPx _ _ _ _ => cases href
      | cancel _ _ => cases href
      | delete _ => cases href
      | replace _ _ _ _ => cases href
  | some oref =>
      have hhit : m.hit f = f oref := by rw [Msg.hit, href, Option.bind_some]
      have hlive : oref = 0 → f 0 ≠ none := fun h₀ => hzero (by rw [href, h₀])
      obtain ⟨r, c, hprobe, hc, hlen, hr, hr₀⟩ := h.probe oref
      have hnonzero : some oref ≠ some 0 → oref ≠ 0 := fun hne h₀ => hne (congrArg some h₀)
      rw [hhit]
      cases r with
      | none =>
          have hid : oref ≠ 0 := fun h₀ => hr₀ h₀ rfl
          have habsent : f oref = none := (hr hid).symm
          refine Or.inr ⟨_, none, resolve_absent pos loc href hprobe, ?_, ?_,
            fun _ => habsent.symm, fun h₀ => absurd (Option.some.inj h₀) hid, fun _ _ => hlen⟩
          · rw [Msg.next_absent href habsent]
            exact hc.mono (Nat.le_succ k)
          · rw [Msg.effect_absent pos href]
            exact ⟨rfl, rfl, rfl, rfl⟩
      | some entry =>
          obtain ⟨l, side, rem, px⟩ := entry
          rcases resolve_hit pos loc href hprobe hc (fun hid => (hr hid).symm) hlive with
            ⟨hfull, hbig⟩ | ⟨s', hrun, hs', htakes⟩
          · refine Or.inl ⟨hfull, hbig, fun oref' heq => ?_⟩
            cases heq
            by_cases hid : oref = 0
            · rw [hid]
              exact hlive hid
            · rw [← hr hid]
              exact Option.some_ne_none _
          · exact Or.inr ⟨s', _, hrun, hs', htakes, fun hne => hr (hnonzero hne),
              fun _ => Option.some_ne_none _, fun _ hnone => absurd hnone (Option.some_ne_none _)⟩

end Pull

/-! ## Runs -/

def walk (us : List (ℕ × List UInt8)) : Except Fault Pull := us.foldlM Pull.step Pull.new

/-- Every unit is an ITCH message that the validator accepts. -/
def Valid (us : List (ℕ × List UInt8)) : Prop := ∀ u ∈ us, Itch5.validate u.2 = .ok ()

/-- Every unit has a type header and the fields of its type. -/
def Decodes (us : List (ℕ × List UInt8)) : Prop :=
  ∀ u ∈ us, 3 ≤ u.2.length ∧ ∃ m, decode u.2 = .ok m

/-- The messages of a part of the stream, with their wire positions. -/
def messages (us : List (ℕ × List UInt8)) : List (ℕ × Msg) :=
  us.filterMap fun u =>
    if u.2.length < 3 then none else (decode u.2).toOption.map fun m => (u.1, m)

/-- The register file behind a part of the stream. -/
def registers (us : List (ℕ × List UInt8)) : RegisterFile :=
  .after ((messages us).map Prod.snd)

section Runs

variable {us : List (ℕ × List UInt8)} {u : ℕ × List UInt8} {s : Pull} {f : RegisterFile}

theorem walk_append_singleton : walk (us ++ [u]) = walk us >>= fun s => s.step u := by
  rw [walk, List.foldlM_append]
  simp only [List.foldlM_cons, List.foldlM_nil, bind_pure]
  rfl

theorem Valid.prefix {pre post : List (ℕ × List UInt8)} (h : Valid (pre ++ post)) : Valid pre :=
  fun u hu => h u (List.mem_append_left _ hu)

theorem Valid.decodes (h : Valid us) : Decodes us := fun u hu => decode_of_validate (h u hu)

theorem Decodes.prefix {pre post : List (ℕ × List UInt8)} (h : Decodes (pre ++ post)) :
    Decodes pre := fun u hu => h u (List.mem_append_left _ hu)

/-- One unit that decodes is one message. -/
theorem step_decodes (h : 3 ≤ u.2.length ∧ ∃ m, decode u.2 = .ok m) (s : Pull) :
    ∃ m, decode u.2 = .ok m ∧ s.step u = s.resolve u.1 (beAt u.2 1 2) m ∧
      ∀ us, messages (us ++ [u]) = messages us ++ [(u.1, m)] ∧
        registers (us ++ [u]) = (registers us).step m := by
  obtain ⟨hlen, m, hm⟩ := h
  have hmessages : ∀ us, messages (us ++ [u]) = messages us ++ [(u.1, m)] := by
    intro us
    rw [messages, List.filterMap_append, List.filterMap_cons, if_neg (Nat.not_lt.mpr hlen), hm]
    rfl
  refine ⟨m, hm, ?_, fun us => ⟨hmessages us, ?_⟩⟩
  · rw [Pull.step, if_neg (Nat.not_lt.mpr hlen), hm]
    rfl
  · rw [registers, hmessages, List.map_append, List.map_singleton,
      RegisterFile.after_append_singleton]
    rfl

/-- One valid unit is one message. -/
theorem step_valid (h : Itch5.validate u.2 = .ok ()) (s : Pull) :
    ∃ m, decode u.2 = .ok m ∧ s.step u = s.resolve u.1 (beAt u.2 1 2) m ∧
      ∀ us, messages (us ++ [u]) = messages us ++ [(u.1, m)] ∧
        registers (us ++ [u]) = (registers us).step m := step_decodes (decode_of_validate h) s

/-- Every unit that decodes gives a message. -/
theorem Decodes.messages_length (h : Decodes us) : (messages us).length = us.length := by
  induction us using List.reverseRecOn with
  | nil => rfl
  | append_singleton us u ih =>
      obtain ⟨m, -, -, hnext⟩ := step_decodes (h u (by simp)) Pull.new
      rw [(hnext us).1, List.length_append, ih h.prefix, List.length_append]
      rfl

/-- Reference 0 is never looked up while it has no live order. -/
def ZeroLive (us : List (ℕ × List UInt8)) : Prop :=
  ∀ pre u post m, us = pre ++ u :: post → decode u.2 = .ok m → m.ref = some 0 →
    registers pre 0 ≠ none

/-- The walk keeps a file with the same live references as the sequential one. -/
theorem walk_live (hdecodes : Decodes us) (hzero : ZeroLive us) :
    (walk us = .error .capacityOverflow ∧ 2 ^ 57 ≤ us.length) ∨
    ∃ s f, walk us = .ok s ∧ Mirrors s.cache f us.length ∧ s.tokens.length = us.length ∧
      ∀ id, f id = none ↔ registers us id = none := by
  induction us using List.reverseRecOn with
  | nil => exact Or.inr ⟨_, _, rfl, Mirrors.new, rfl, fun _ => Iff.rfl⟩
  | append_singleton us u ih =>
      rw [walk_append_singleton, List.length_append, List.length_singleton]
      rcases ih hdecodes.prefix
          (fun pre u' post m heq => hzero pre u' (post ++ [u]) m (by simp [heq]))
        with ⟨hrun, hbig⟩ | ⟨s, f, hrun, hs, htokens, hlive⟩
      · rw [hrun]
        exact Or.inl ⟨rfl, by omega⟩
      · obtain ⟨m, hm, hstep, hnext⟩ := step_decodes (hdecodes u (by simp)) s
        have hfile : m.ref = some 0 → f 0 ≠ none := by
          intro href hnone
          exact hzero us u [] m rfl hm href ((hlive 0).mp hnone)
        rw [hrun, Pull.bind_ok, hstep, (hnext us).2]
        rcases Pull.resolve_spec hs u.1 (beAt u.2 1 2) m hfile with
          ⟨hfull, hbig, -⟩ | ⟨s', hit, hok, hs', htakes, hhit, hhit₀, -⟩
        · exact Or.inl ⟨hfull, by omega⟩
        · refine Or.inr ⟨s', _, hok, hs', ?_, fun id => ?_⟩
          · rw [htakes.1, List.length_append, htokens, List.length_singleton]
          apply Msg.next_live m hlive
          by_cases href : m.ref = some 0
          · have hz := hzero us u [] m rfl hm href
            rw [Msg.hit, href, Option.bind_some]
            exact iff_of_false (hhit₀ href) hz
          · rw [hhit href, Msg.hit, Msg.hit]
            cases m.ref with
            | none => rfl
            | some oref => exact hlive oref

/-- The columns and the counts are those of a list of effects. -/
def Pull.Sums (s : Pull) (es : List Effect) : Prop :=
  s.tokens = es.map Effect.token ∧ s.anomalies = (es.map Effect.anomalies).sum ∧
    s.clamps = (es.map Effect.clamps).sum ∧ s.zeroRemKeeps = (es.map Effect.zeroRemKeeps).sum

theorem Pull.Sums.takes {s' : Pull} {es : List Effect} {e : Effect} (h : s.Sums es)
    (ht : s.Takes s' e) : s'.Sums (es ++ [e]) := by
  obtain ⟨h₁, h₂, h₃, h₄⟩ := h
  obtain ⟨t₁, t₂, t₃, t₄⟩ := ht
  refine ⟨?_, ?_, ?_, ?_⟩
  · rw [t₁, h₁, List.map_append, List.map_singleton]
  · rw [t₂, h₂, List.map_append, List.sum_append, List.map_singleton, List.sum_singleton]
  · rw [t₃, h₃, List.map_append, List.sum_append, List.map_singleton, List.sum_singleton]
  · rw [t₄, h₄, List.map_append, List.sum_append, List.map_singleton, List.sum_singleton]

/-- Without a lookup of reference 0, the walk is the sequential register file. -/
theorem walk_registers (hvalid : Valid us) (href : ∀ m ∈ messages us, m.2.ref ≠ some 0) :
    (walk us = .error .capacityOverflow ∧ 2 ^ 57 ≤ us.length) ∨
    ∃ s, walk us = .ok s ∧ Mirrors s.cache (registers us) us.length ∧
      s.Sums (RegisterFile.effects (fun _ => none) (messages us)) := by
  induction us using List.reverseRecOn with
  | nil => exact Or.inr ⟨_, rfl, Mirrors.new, rfl, rfl, rfl, rfl⟩
  | append_singleton us u ih =>
      have hu := hvalid u (by simp)
      obtain ⟨m, -, -, hnext⟩ := step_valid hu Pull.new
      rw [walk_append_singleton, List.length_append, List.length_singleton, (hnext us).1,
        (hnext us).2, RegisterFile.effects_append]
      rw [(hnext us).1] at href
      have hne : m.ref ≠ some 0 := href (u.1, m) (by simp)
      rcases ih hvalid.prefix fun m' hm' => href m' (List.mem_append_left _ hm') with
        ⟨hrun, hbig⟩ | ⟨s, hrun, hs, hsums⟩
      · rw [hrun]
        exact Or.inl ⟨rfl, by omega⟩
      · obtain ⟨m', hm', hstep, hnext'⟩ := step_valid hu s
        obtain rfl : m = m' := by
          have hsame := (hnext []).1.symm.trans (hnext' []).1
          simpa using hsame
        rw [hrun, Pull.bind_ok, hstep]
        rcases Pull.resolve_spec hs u.1 (beAt u.2 1 2) m (fun h₀ => absurd h₀ hne) with
          ⟨hfull, hbig, -⟩ | ⟨s', hit, hok, hs', htakes, hhit, -⟩
        · exact Or.inl ⟨hfull, by omega⟩
        · rw [hhit hne] at hs' htakes
          exact Or.inr ⟨s', hok, hs', hsums.takes htakes⟩

/-- At every message reached: an absent order that an E, C, X, D or U refers to is counted as
an anomaly and gives the empty token, with the table's count left alone; no other message is
an anomaly; and the one failure is an allocation of `2 ^ 60` slots. -/
def HandlesAbsent (us : List (ℕ × List UInt8)) : Prop :=
  ∀ pre u post s m, us = pre ++ u :: post → walk pre = .ok s → decode u.2 = .ok m →
    ((∃ oref, m.ref = some oref ∧ registers pre oref = none) →
      ∃ s', s.step u = .ok s' ∧ s'.anomalies = s.anomalies + 1 ∧
        s'.tokens = s.tokens ++ [.empty] ∧ s'.cache.len = s.cache.len) ∧
    ((∀ oref, m.ref = some oref → registers pre oref ≠ none) →
      ∀ s', s.step u = .ok s' → s'.anomalies = s.anomalies) ∧
    ∀ fault, s.step u = .error fault → fault = .capacityOverflow ∧ 2 ^ 57 ≤ us.length

theorem effect_live {m : Msg} (pos : ℕ) {hit : Option Register} (h : m.ref ≠ none → hit ≠ none) :
    (m.effect pos hit).anomalies = 0 := by
  cases hit with
  | some r => cases m <;> rfl
  | none =>
      cases m with
      | add _ _ _ _ => rfl
      | print _ => rfl
      | other => rfl
      | executed _ _ => exact absurd rfl (h (Option.some_ne_none _))
      | executedPx _ _ _ _ => exact absurd rfl (h (Option.some_ne_none _))
      | cancel _ _ => exact absurd rfl (h (Option.some_ne_none _))
      | delete _ => exact absurd rfl (h (Option.some_ne_none _))
      | replace _ _ _ _ => exact absurd rfl (h (Option.some_ne_none _))

theorem ZeroLive.prefix {pre post : List (ℕ × List UInt8)} (h : ZeroLive (pre ++ post)) :
    ZeroLive pre :=
  fun pre' u post' m heq => h pre' u (post' ++ post) m (by simp [heq])

theorem ZeroLive.handles (hvalid : Valid us) (hzero : ZeroLive us) : HandlesAbsent us := by
  intro pre u post s m heq hwalk hm
  subst heq
  have hlength : pre.length ≤ (pre ++ u :: post).length := by simp
  rcases walk_live hvalid.decodes.prefix hzero.prefix with
    ⟨hfull, -⟩ | ⟨s₀, f, hok, hs, -, hlive⟩
  · rw [hfull] at hwalk
    cases hwalk
  rw [hok] at hwalk
  cases hwalk
  obtain ⟨m', hm', hstep, -⟩ := step_valid (hvalid u (by simp)) s
  rw [hm] at hm'
  cases hm'
  have hfile : m.ref = some 0 → f 0 ≠ none := by
    intro href hnone
    exact hzero pre u post m rfl hm href ((hlive 0).mp hnone)
  rw [hstep]
  rcases Pull.resolve_spec hs u.1 (beAt u.2 1 2) m hfile with
    ⟨hfull, hbig, hall⟩ | ⟨s', hit, hrun, -, htakes, hhit, hhit₀, hlen⟩
  · rw [hfull]
    refine ⟨?_, ?_, ?_⟩
    · rintro ⟨oref, href, habsent⟩
      exact absurd ((hlive oref).mpr habsent) (hall oref href)
    · intro _ s' hok
      cases hok
    · intro fault herr
      cases herr
      exact ⟨rfl, hbig.trans hlength⟩
  · rw [hrun]
    refine ⟨?_, ?_, fun fault herr => by cases herr⟩
    · rintro ⟨oref, href, habsent⟩
      have hne : m.ref ≠ some 0 := by
        intro h₀
        rw [h₀] at href
        cases href
        exact hfile h₀ ((hlive 0).mpr habsent)
      have hnone : hit = none := by
        rw [hhit hne, Msg.hit, href, Option.bind_some, (hlive oref).mpr habsent]
      rw [hnone, Msg.effect_absent u.1 href] at htakes
      exact ⟨s', rfl, htakes.2.1, htakes.1,
        hlen (by rw [href]; exact Option.some_ne_none _) hnone⟩
    · rintro hall s'' hsame
      cases hsame
      have hhits : m.ref ≠ none → hit ≠ none := by
        intro href
        obtain ⟨oref, horef⟩ := Option.ne_none_iff_exists'.mp href
        by_cases h₀ : m.ref = some 0
        · exact hhit₀ h₀
        · rw [hhit h₀, Msg.hit, horef, Option.bind_some]
          exact fun hnone => hall oref horef ((hlive oref).mp hnone)
      rw [htakes.2.1, effect_live u.1 hhits, Nat.add_zero]

/-- A message that looks up reference 0 is never an anomaly. -/
theorem resolve_zero {k : ℕ} (hs : Mirrors s.cache f k) {m : Msg} (href : m.ref = some 0)
    (pos loc : ℕ) (s' : Pull) (hrun : s.resolve pos loc m = .ok s') :
    s'.anomalies = s.anomalies := by
  obtain ⟨r, c, hprobe, -, -, -, hr₀⟩ := hs.probe 0
  obtain ⟨⟨l, side, rem, px⟩, rfl⟩ : ∃ entry, r = some entry := by
    cases r with
    | none => exact absurd rfl (hr₀ rfl)
    | some entry => exact ⟨entry, rfl⟩
  have hbind : ∀ {x : Except Fault OrderCache} {g : OrderCache → Except Fault Pull},
      x >>= g = .ok s' → ∃ c', x = .ok c' ∧ g c' = .ok s' := by
    intro x g hx
    cases x with
    | error e => cases hx
    | ok c' => exact ⟨c', rfl, hx⟩
  cases m with
  | add _ _ _ _ => cases href
  | print _ => cases href
  | other => cases href
  | executed oref q =>
      cases href
      simp only [Pull.resolve, hprobe, Pull.bind_ok] at hrun
      obtain ⟨c', -, hrun⟩ := hbind hrun
      cases hrun
      rfl
  | executedPx oref q printable execPx =>
      cases href
      simp only [Pull.resolve, hprobe, Pull.bind_ok] at hrun
      obtain ⟨c', -, hrun⟩ := hbind hrun
      cases hrun
      rfl
  | cancel oref q =>
      cases href
      simp only [Pull.resolve, hprobe, Pull.bind_ok] at hrun
      obtain ⟨c', -, hrun⟩ := hbind hrun
      cases hrun
      rfl
  | delete oref =>
      cases href
      simp only [Pull.resolve, hprobe, Pull.bind_ok] at hrun
      obtain ⟨c', -, hrun⟩ := hbind hrun
      cases hrun
      rfl
  | replace oref nref nq npx =>
      cases href
      simp only [Pull.resolve, hprobe, Pull.bind_ok] at hrun
      obtain ⟨c', -, hrun⟩ := hbind hrun
      obtain ⟨c'', -, hrun⟩ := hbind hrun
      cases hrun
      rfl

/-- Where the absent orders are handled, reference 0 is live at every lookup of it. -/
theorem HandlesAbsent.zeroLive (hvalid : Valid us) (h : HandlesAbsent us)
    (hfew : us.length < 2 ^ 57) : ZeroLive us := by
  suffices hall : ∀ pre post, us = pre ++ post → ZeroLive pre from hall us [] (by simp)
  intro pre
  induction pre using List.reverseRecOn with
  | nil =>
      intro post _ pre' u post' m heq
      simp at heq
  | append_singleton pre u ih =>
      intro post heq
      have hsplit : us = pre ++ u :: post := by simpa using heq
      have hpre := ih (u :: post) hsplit
      have hlength : pre.length < us.length := by
        rw [hsplit]
        simp
      subst hsplit
      rcases walk_live hvalid.decodes.prefix hpre with ⟨-, hbig⟩ | ⟨s, f, hok, hs, -, hlive⟩
      · omega
      intro pre' u' post' m hcut hm href hnone
      rcases List.eq_nil_or_concat post' with rfl | ⟨post'', last, rfl⟩
      · obtain ⟨rfl, hu⟩ := List.append_inj' hcut rfl
        cases hu
        obtain ⟨m', hm', hstep, -⟩ := step_valid (hvalid u (by simp)) s
        rw [hm] at hm'
        cases hm'
        obtain ⟨s', hrun, hcount, -⟩ := (h pre u post s m rfl hok hm).1 ⟨0, href, hnone⟩
        rw [hstep] at hrun
        have hsame := resolve_zero hs href _ _ s' hrun
        omega
      · have hcut' : pre ++ [u] = (pre' ++ u' :: post'') ++ [last] := by simpa using hcut
        obtain ⟨hpre', -⟩ := List.append_inj' hcut' rfl
        exact hpre pre' u' post'' m hpre' hm href hnone

end Runs

/-- For valid bodies, the absent orders are handled wherever reference 0 is live at every
lookup of it, and nowhere else unless the run is too long for the table. -/
theorem absent_orders_are_anomalies_iff (bodies : List (List UInt8))
    (hvalid : Valid (stream bodies)) :
    (ZeroLive (stream bodies) → HandlesAbsent (stream bodies)) ∧
    (HandlesAbsent (stream bodies) →
      ZeroLive (stream bodies) ∨ 2 ^ 57 ≤ (stream bodies).length) := by
  refine ⟨ZeroLive.handles hvalid, fun h => ?_⟩
  rcases Nat.lt_or_ge (stream bodies).length (2 ^ 57) with hfew | hmany
  · exact Or.inl (h.zeroLive hvalid hfew)
  · exact Or.inr hmany

/-- A delete of reference 0. -/
def deleteZero : List UInt8 := 'D'.toUInt8 :: List.replicate 18 0

theorem stream_deleteZero : stream [0 :: 19 :: deleteZero] = [(1, deleteZero)] := by
  rw [stream, List.flatMap_singleton, units_single (by decide)]
  rfl

theorem absent_orders_are_anomalies_iff_deleteZero :
    (ZeroLive (stream [0 :: 19 :: deleteZero]) → HandlesAbsent (stream [0 :: 19 :: deleteZero])) ∧
    (HandlesAbsent (stream [0 :: 19 :: deleteZero]) →
      ZeroLive (stream [0 :: 19 :: deleteZero]) ∨
        2 ^ 57 ≤ (stream [0 :: 19 :: deleteZero]).length) := by
  apply absent_orders_are_anomalies_iff
  rw [stream_deleteZero]
  intro u hu
  rw [List.mem_singleton.mp hu]
  rfl

/-- A delete of reference 0 in an empty book finds an empty slot and is no anomaly. -/
theorem absent_zero_is_no_anomaly : ¬HandlesAbsent (stream [0 :: 19 :: deleteZero]) := by
  rw [stream_deleteZero]
  intro h
  have hvalid : Valid [(1, deleteZero)] := by
    intro u hu
    rw [List.mem_singleton.mp hu]
    rfl
  have hlive := h.zeroLive hvalid (by decide)
  exact hlive [] (1, deleteZero) [] (.delete 0) rfl (by decide) rfl rfl

end HftProj.Testkit.SigFabric
