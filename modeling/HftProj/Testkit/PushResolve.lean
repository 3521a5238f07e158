import HftProj.Testkit.BatchCarry
import HftProj.Testkit.SigFabric

/-!
# The push resolve over a stream

One decode walk, then batches of at most 512 rows, each entered with the registers that the one
before it left. What it resolves is what the messages say to the threads' register file.
-/

namespace HftProj.Testkit.SigPush

open HftProj.Lib
open HftProj.Protocol
open OrderScan

/-! ## The decode walk -/

/-- Reading behind the end of a message panics. -/
def within (msg : List UInt8) (n : ℕ) (d : Dec) : Except Fault Dec :=
  if n ≤ msg.length then .ok d else .error .outOfBounds

/-- The decode of one message; fields that its type has not are zero. -/
def decodeDec (pos : ℕ) (msg : List UInt8) : Except Fault Dec :=
  let t := msg.getD 0 0
  let d : Dec := {
    t := t.toNat, act := none, loc := beAt msg 1 2, id := 0, q := 0, px := 0, side := 0
    printable := 0, newId := 0, newQ := 0, newPx := 0, pos := pos }
  if t = 'A'.toUInt8 ∨ t = 'F'.toUInt8 then
    within msg 36 { d with
      act := some .a, id := beAt msg 11 8, side := beAt msg 19 1, q := beAt msg 20 4
      px := beAt msg 32 4 }
  else if t = 'E'.toUInt8 then
    within msg 23 { d with act := some .e, id := beAt msg 11 8, q := beAt msg 19 4 }
  else if t = 'C'.toUInt8 then
    within msg 36 { d with
      act := some .c, id := beAt msg 11 8, q := beAt msg 19 4, printable := beAt msg 31 1
      px := beAt msg 32 4 }
  else if t = 'X'.toUInt8 then
    within msg 23 { d with act := some .x, id := beAt msg 11 8, q := beAt msg 19 4 }
  else if t = 'D'.toUInt8 then
    within msg 19 { d with act := some .d, id := beAt msg 11 8 }
  else if t = 'U'.toUInt8 then
    within msg 35 { d with
      act := some .u, id := beAt msg 11 8, newId := beAt msg 19 8, newQ := beAt msg 27 4
      newPx := beAt msg 31 4 }
  else if t = 'P'.toUInt8 then within msg 36 { d with px := beAt msg 32 4 }
  else if t = 'Q'.toUInt8 then within msg 31 { d with px := beAt msg 27 4 }
  else .ok d

/-- One unit; one with no type header is counted and skipped. -/
def decodeUnit (dec : List Dec) (u : ℕ × List UInt8) : Except Fault (List Dec) :=
  if u.2.length < 3 then .ok dec
  else do
    let d ← decodeDec u.1 u.2
    return dec ++ [d]

def decodeWalk (us : List (ℕ × List UInt8)) : Except Fault (List Dec) := us.foldlM decodeUnit []

/-! ## The batch loop -/

/-- The rows that a message adds to its batch. -/
def Dec.rows (g : Dec) : ℕ :=
  match g.act with
  | some .u => 2
  | none => 0
  | some _ => 1

/-- How many messages the batch takes; a message never splits, and the first one is always
taken. -/
@[grind =]
def batchEnd (rowsIn : ℕ) (taken : Bool) : List Dec → ℕ
  | [] => 0
  | g :: rest =>
      if rowsIn + g.rows > SCAN_B_MAX ∧ taken then 0
      else batchEnd (rowsIn + g.rows) true rest + 1

/-- The product of the resolve stage and the registers between two batches. -/
structure Push where
  tokens : List Token
  counts : Counts
  carry : Carry

namespace Push

def new : Push := ⟨[], ⟨0, 0, 0⟩, fun _ => none⟩

/-- One batch more. -/
def batch (p : Push) (b : List Dec) : Except Fault Push := do
  let (tokens, counts, carry) ← resolveBatch ⟨b, p.carry⟩
  return ⟨p.tokens ++ tokens,
    ⟨p.counts.anomalies + counts.anomalies, p.counts.clamps + counts.clamps,
      p.counts.zeroRemKeeps + counts.zeroRemKeeps⟩, carry⟩

/-- The batch loop. -/
@[grind =]
def loop (p : Push) : List Dec → Except Fault Push
  | [] => .ok p
  | g :: rest => do
      let next ← p.batch ((g :: rest).take (batchEnd 0 false (g :: rest)))
      next.loop ((g :: rest).drop (batchEnd 0 false (g :: rest)))
termination_by dec => dec.length
decreasing_by
  have hpos : 0 < batchEnd 0 false (g :: rest) := by
    rw [batchEnd, if_neg (fun h => Bool.false_ne_true h.2)]
    exact Nat.succ_pos _
  rw [List.length_drop, List.length_cons]
  omega

end Push

def resolvePush (bodies : List (List UInt8)) : Except Fault Push := do
  let dec ← decodeWalk (stream bodies)
  Push.new.loop dec

/-! ## The decoded messages -/

/-- The fields that both resolve paths read are the same. -/
theorem decodeDec_spec {pos : ℕ} {msg : List UInt8} {m : Msg} (h : decode msg = .ok m) :
    ∃ d, decodeDec pos msg = .ok d ∧ d.msg = m ∧ d.pos = pos ∧ d.Sized := by
  have h4 : ∀ i, beAt msg i 4 < 2 ^ 32 := fun i => beAt_lt msg i 4
  have h2 : beAt msg 1 2 < 2 ^ 16 := beAt_lt msg 1 2
  have hreach : ∀ {n : ℕ} {m' : Msg} (d : Dec), reaching msg n m' = .ok m →
      d.msg = m' → d.pos = pos → d.Sized →
      ∃ d', within msg n d = .ok d' ∧ d'.msg = m ∧ d'.pos = pos ∧ d'.Sized := by
    intro n m' d hrun hmsg hpos hsized
    obtain rfl := reaching_eq_ok hrun
    rw [reaching] at hrun
    split at hrun
    · next hn => exact ⟨d, if_pos hn, hmsg, hpos, hsized⟩
    · cases hrun
  simp only [decode] at h
  simp only [decodeDec]
  have hzero : (0 : ℕ) < 2 ^ 32 := by decide
  have hnone : ∀ {act : Act}, act ≠ .d → ∀ {q : ℕ}, some act = some .d → q = 0 := by
    intro act hne q heq
    exact absurd (Option.some.inj heq) hne
  by_cases hA : msg.getD 0 0 = 'A'.toUInt8 ∨ msg.getD 0 0 = 'F'.toUInt8
  · rw [if_pos hA] at h ⊢
    exact hreach _ h rfl rfl ⟨h4 _, h4 _, hzero, hzero, h2, hnone (by decide)⟩
  rw [if_neg hA] at h ⊢
  by_cases hE : msg.getD 0 0 = 'E'.toUInt8
  · rw [if_pos hE] at h ⊢
    exact hreach _ h rfl rfl ⟨h4 _, hzero, hzero, hzero, h2, hnone (by decide)⟩
  rw [if_neg hE] at h ⊢
  by_cases hC : msg.getD 0 0 = 'C'.toUInt8
  · rw [if_pos hC] at h ⊢
    exact hreach _ h rfl rfl ⟨h4 _, h4 _, hzero, hzero, h2, hnone (by decide)⟩
  rw [if_neg hC] at h ⊢
  by_cases hX : msg.getD 0 0 = 'X'.toUInt8
  · rw [if_pos hX] at h ⊢
    exact hreach _ h rfl rfl ⟨h4 _, hzero, hzero, hzero, h2, hnone (by decide)⟩
  rw [if_neg hX] at h ⊢
  by_cases hD : msg.getD 0 0 = 'D'.toUInt8
  · rw [if_pos hD] at h ⊢
    exact hreach _ h rfl rfl ⟨hzero, hzero, hzero, hzero, h2, fun _ => rfl⟩
  rw [if_neg hD] at h ⊢
  by_cases hU : msg.getD 0 0 = 'U'.toUInt8
  · rw [if_pos hU] at h ⊢
    exact hreach _ h rfl rfl ⟨hzero, hzero, h4 _, h4 _, h2, hnone (by decide)⟩
  rw [if_neg hU] at h ⊢
  by_cases hP : msg.getD 0 0 = 'P'.toUInt8
  · rw [if_pos hP] at h ⊢
    refine hreach _ h ?_ rfl ⟨hzero, h4 _, hzero, hzero, h2, fun hd => by cases hd⟩
    exact if_pos (Or.inl (by rw [hP]; rfl))
  rw [if_neg hP] at h ⊢
  by_cases hQ : msg.getD 0 0 = 'Q'.toUInt8
  · rw [if_pos hQ] at h ⊢
    refine hreach _ h ?_ rfl ⟨hzero, h4 _, hzero, hzero, h2, fun hd => by cases hd⟩
    exact if_pos (Or.inr (by rw [hQ]; rfl))
  rw [if_neg hQ] at h ⊢
  refine ⟨_, rfl, ?_, rfl, hzero, hzero, hzero, hzero, h2, fun hd => by cases hd⟩
  rw [← Except.ok.inj h]
  apply if_neg
  rintro (hp | hq)
  · exact hP (UInt8.toNat_inj.mp hp)
  · exact hQ (UInt8.toNat_inj.mp hq)

/-- The walk decodes a stream of units that decode. -/
theorem decodeWalk_spec {us : List (ℕ × List UInt8)} (hdecodes : SigFabric.Decodes us) :
    ∃ dec, decodeWalk us = .ok dec ∧
      dec.map (fun g => (g.pos, g.msg)) = SigFabric.messages us ∧ ∀ g ∈ dec, g.Sized := by
  induction us using List.reverseRecOn with
  | nil => exact ⟨[], rfl, rfl, fun g hg => by cases hg⟩
  | append_singleton us u ih =>
      obtain ⟨dec, hrun, hmap, hsized⟩ := ih hdecodes.prefix
      have hu := hdecodes u (by simp)
      obtain ⟨m, hm, -, hnext⟩ := SigFabric.step_decodes hu SigFabric.Pull.new
      obtain ⟨d, hd, hmsg, hpos, hdsized⟩ := @decodeDec_spec u.1 _ _ hm
      refine ⟨dec ++ [d], ?_, ?_, ?_⟩
      · rw [decodeWalk, List.foldlM_append]
        rw [decodeWalk] at hrun
        simp only [hrun, SigFabric.Pull.bind_ok, List.foldlM_cons, List.foldlM_nil, bind_pure]
        rw [decodeUnit, if_neg (Nat.not_lt.mpr hu.1), hd]
        rfl
      · rw [(hnext us).1, List.map_append, hmap, List.map_singleton, hmsg, hpos]
      · intro g hg
        rcases List.mem_append.mp hg with hg | hg
        · exact hsized g hg
        · exact List.mem_singleton.mp hg ▸ hdsized

/-! ## The threads' register file -/

/-- What the messages of a list resolve to, on the threads' register file. -/
@[grind =]
def threadEffects (f : RegisterFile) : List (ℕ × Msg) → List Effect
  | [] => []
  | (pos, m) :: ms => m.effect pos (m.hit f) :: threadEffects (f.threadStep m) ms

theorem threadEffects_append (f : RegisterFile) (ms ms' : List (ℕ × Msg)) :
    threadEffects f (ms ++ ms') =
      threadEffects f ms ++
        threadEffects ((ms.map Prod.snd).foldl RegisterFile.threadStep f) ms' := by
  induction ms generalizing f with
  | nil => rfl
  | cons m ms ih => exact congrArg _ (ih (f.threadStep m.2))

namespace Frame

variable {fr : Frame}

/-- What the messages of a batch resolve to. -/
def effects (fr : Frame) : List Effect :=
  (List.range fr.batch.length).map fun gi =>
    (fr.msg gi).msg.effect (fr.msg gi).pos ((fr.msg gi).msg.hit (fr.file gi))

theorem effects_eq :
    fr.effects = threadEffects fr.entry (fr.batch.map fun g => (g.pos, g.msg)) := by
  suffices hall : ∀ k ≤ fr.batch.length,
      (List.range k).map (fun gi =>
        (fr.msg gi).msg.effect (fr.msg gi).pos ((fr.msg gi).msg.hit (fr.file gi))) =
      threadEffects fr.entry ((fr.batch.take k).map fun g => (g.pos, g.msg)) by
    have hfull := hall _ (Nat.le_refl _)
    rwa [List.take_length] at hfull
  intro k
  induction k with
  | zero => exact fun _ => rfl
  | succ k ih =>
      intro hk
      have hlt : k < fr.batch.length := hk
      rw [List.range_succ, List.map_append, ih (Nat.le_of_lt hlt), List.map_singleton,
        List.take_succ_eq_append_getElem hlt, List.map_append, threadEffects_append, msg_eq hlt,
        file, List.map_map]
      rfl

/-- The rows of a batch are those of its messages. -/
theorem spec_length : fr.spec.length = (fr.batch.map Dec.rows).sum := by
  rw [spec_perm.length_eq]
  suffices hall : ∀ k ≤ fr.batch.length,
      (fr.slotsTo k).length = ((fr.batch.take k).map Dec.rows).sum by
    have hfull := hall _ (Nat.le_refl _)
    rwa [List.take_length] at hfull
  intro k
  induction k with
  | zero => exact fun _ => rfl
  | succ k ih =>
      intro hk
      have hlt : k < fr.batch.length := hk
      rw [slotsTo_succ, List.length_append, ih (Nat.le_of_lt hlt),
        List.take_succ_eq_append_getElem hlt, List.map_append, List.sum_append, msg_eq hlt]
      congr 1
      rw [slotsOf, List.map_singleton, List.sum_singleton, Dec.rows]
      cases fr.batch[k].act with
      | none => rfl
      | some act => cases act <;> rfl

end Frame

/-- The columns and the counts are those of a list of effects. -/
def Tallied (tokens : List Token) (counts : Counts) (es : List Effect) : Prop :=
  tokens = es.map Effect.token ∧ counts.anomalies = (es.map Effect.anomalies).sum ∧
    counts.clamps = (es.map Effect.clamps).sum ∧
    counts.zeroRemKeeps = (es.map Effect.zeroRemKeeps).sum

/-- The carry shows a register file with 32-bit quantities. -/
def Shows (carry : Carry) (f : RegisterFile) : Prop :=
  (∀ id, (carry id).bind Reg.register = f id) ∧
    ∀ id r, carry id = some r → r.dead = false → r.rho.toNat < 2 ^ 32

theorem resolveBatch_spec {carry : Carry} {f : RegisterFile} {batch : List Dec}
    (hcarry : Shows carry f) (hsized : ∀ g ∈ batch, g.Sized)
    (hrows : (batch.map Dec.rows).sum ≤ SCAN_B_MAX) :
    ∃ tokens counts carry', resolveBatch ⟨batch, carry⟩ = .ok (tokens, counts, carry') ∧
      Tallied tokens counts (threadEffects f (batch.map fun g => (g.pos, g.msg))) ∧
      Shows carry' ((batch.map Dec.msg).foldl RegisterFile.threadStep f) := by
  have hent : Frame.Entered ⟨batch, carry⟩ := ⟨hsized, hcarry.2⟩
  have hentry : Frame.entry ⟨batch, carry⟩ = f := funext hcarry.1
  obtain ⟨r, hok, hshape, hviol, hcols⟩ := Frame.final_round hent
  have heffects := @Frame.effects_eq ⟨batch, carry⟩
  rw [hentry] at heffects
  rw [resolveBatch, if_neg (by rw [Frame.spec_length]; exact Nat.not_lt.mpr hrows), hok]
  have hfinal : ∀ gi ∈ List.range batch.length, _ := fun gi hgi =>
    Frame.final_effect hent hshape hviol (List.mem_range.mp hgi)
  have hsum : ∀ (p : ℕ × ℕ × ℕ → ℕ) (q : Effect → ℕ),
      (∀ e : Effect, p (e.anomalies, e.clamps, e.zeroRemKeeps) = q e) →
      (((List.range batch.length).map (Frame.counts ⟨batch, carry⟩ r.rows)).map p).sum =
        ((Frame.effects ⟨batch, carry⟩).map q).sum := by
    intro p q hpq
    rw [Frame.effects, List.map_map, List.map_map]
    apply congrArg
    apply List.map_congr_left
    intro gi hgi
    exact (congrArg p (hfinal gi hgi).2).trans (hpq _)
  refine ⟨_, _, _, rfl, ?_, ?_⟩
  · rw [← heffects]
    refine ⟨?_, hsum _ _ fun _ => rfl, hsum _ _ fun _ => rfl, hsum _ _ fun _ => rfl⟩
    rw [Frame.effects, List.map_map]
    apply List.map_congr_left
    intro gi hgi
    rw [hcols gi (List.mem_range.mp hgi)]
    exact (hfinal gi hgi).1
  · have hentries := Frame.carried_entry hent hshape hviol
    have hfile : Frame.file ⟨batch, carry⟩ batch.length =
        (batch.map Dec.msg).foldl RegisterFile.threadStep f := by
      rw [Frame.file, hentry, List.take_length]
    exact ⟨fun id => (hentries id).1.trans (by rw [hfile]), fun id => (hentries id).2⟩

/-! ## The run -/

/-- A batch keeps to the row budget. -/
theorem batchEnd_rows (rowsIn : ℕ) (taken : Bool) (dec : List Dec) (hin : rowsIn ≤ SCAN_B_MAX)
    (hfirst : taken = false → rowsIn = 0) :
    rowsIn + ((dec.take (batchEnd rowsIn taken dec)).map Dec.rows).sum ≤ SCAN_B_MAX := by
  induction dec generalizing rowsIn taken with
  | nil => exact hin
  | cons g rest ih =>
      rw [batchEnd]
      split
      · exact hin
      · next hfits =>
          have hle : rowsIn + g.rows ≤ SCAN_B_MAX := by
            cases taken with
            | true => exact Nat.le_of_not_lt fun hlt => hfits ⟨hlt, rfl⟩
            | false =>
                rw [hfirst rfl, Nat.zero_add, Dec.rows]
                split <;> decide
          have hrest := ih (rowsIn + g.rows) true hle fun hno => by cases hno
          rw [List.take_succ_cons, List.map_cons, List.sum_cons]
          omega

theorem Tallied.append {tokens tokens' : List Token} {counts counts' : Counts}
    {es es' : List Effect} (h : Tallied tokens counts es) (h' : Tallied tokens' counts' es') :
    Tallied (tokens ++ tokens')
      ⟨counts.anomalies + counts'.anomalies, counts.clamps + counts'.clamps,
        counts.zeroRemKeeps + counts'.zeroRemKeeps⟩ (es ++ es') := by
  obtain ⟨h₁, h₂, h₃, h₄⟩ := h
  obtain ⟨h₁', h₂', h₃', h₄'⟩ := h'
  refine ⟨?_, ?_, ?_, ?_⟩
  · rw [h₁, h₁', List.map_append]
  · rw [List.map_append, List.sum_append, ← h₂, ← h₂']
  · rw [List.map_append, List.sum_append, ← h₃, ← h₃']
  · rw [List.map_append, List.sum_append, ← h₄, ← h₄']

/-- The loop resolves the messages on the threads' register file, whatever the batches. -/
theorem loop_spec (dec : List Dec) (p : Push) {f : RegisterFile} {es : List Effect}
    (htallied : Tallied p.tokens p.counts es) (hcarry : Shows p.carry f)
    (hsized : ∀ g ∈ dec, g.Sized) :
    ∃ p', p.loop dec = .ok p' ∧ Tallied p'.tokens p'.counts
      (es ++ threadEffects f (dec.map fun g => (g.pos, g.msg))) := by
  induction p, dec using Push.loop.induct generalizing f es with
  | case1 p =>
      refine ⟨p, by rw [Push.loop], ?_⟩
      rwa [List.map_nil, threadEffects, List.append_nil]
  | case2 p g rest ih =>
      have hrows := batchEnd_rows 0 false (g :: rest) (Nat.zero_le _) fun _ => rfl
      rw [Nat.zero_add] at hrows
      obtain ⟨tokens, counts, carry, hrun, htallied', hcarry'⟩ := resolveBatch_spec hcarry
        (fun d hd => hsized d (List.mem_of_mem_take hd)) hrows
      obtain ⟨p', hok, hp'⟩ := ih ⟨_, _, carry⟩ (htallied.append htallied') hcarry'
        fun d hd => hsized d (List.mem_of_mem_drop hd)
      have hcut := threadEffects_append f
        (((g :: rest).take (batchEnd 0 false (g :: rest))).map fun g => (g.pos, g.msg))
        (((g :: rest).drop (batchEnd 0 false (g :: rest))).map fun g => (g.pos, g.msg))
      rw [← List.map_append, List.take_append_drop, List.map_map] at hcut
      refine ⟨p', ?_, ?_⟩
      · rw [Push.loop, Push.batch, hrun]
        exact hok
      · rw [hcut, ← List.append_assoc]
        exact hp'

/-- What the push resolve gives for bodies whose units decode. -/
theorem resolvePush_decodes {bodies : List (List UInt8)}
    (hdecodes : SigFabric.Decodes (stream bodies)) :
    ∃ p, resolvePush bodies = .ok p ∧ Tallied p.tokens p.counts
      (threadEffects (fun _ => none) (SigFabric.messages (stream bodies))) := by
  obtain ⟨dec, hrun, hmap, hsized⟩ := decodeWalk_spec hdecodes
  have htallied : Tallied Push.new.tokens Push.new.counts [] := ⟨rfl, rfl, rfl, rfl⟩
  have hcarry : Shows Push.new.carry fun _ => none := ⟨fun _ => rfl, fun _ _ h => by cases h⟩
  obtain ⟨p, hok, hp⟩ := loop_spec dec .new htallied hcarry hsized
  refine ⟨p, ?_, ?_⟩
  · rw [resolvePush, hrun]
    exact hok
  · rwa [hmap] at hp

/-- What the push resolve gives for valid bodies. -/
theorem resolvePush_spec {bodies : List (List UInt8)} (hvalid : SigFabric.Valid (stream bodies)) :
    ∃ p, resolvePush bodies = .ok p ∧ Tallied p.tokens p.counts
      (threadEffects (fun _ => none) (SigFabric.messages (stream bodies))) :=
  resolvePush_decodes hvalid.decodes

end HftProj.Testkit.SigPush
