import HftProj.Transport.PipelineRing

/-!
# The consumer's side of the ring

The consumer returns the buffers in turn order as long as every call that returns buffers finds
the selector on the last turn handed out. Then the two threads, however they are interleaved,
never touch the same buffer, and what the consumer reads is what has been published.
-/

namespace HftProj.Transport.Pipeline

open HftProj.Lib HftProj.Lib.TurnRing

/-! ## Where the consumer stands -/

/-- How many turns of a group have been swept and not yet handed out. -/
def ConsPc.swept : ConsPc → ℕ
  | .sweep _ n | .sweepLen _ n => n
  | _ => 0

/-- A point that has no part in a reset. -/
def ConsPc.aside : ConsPc → Bool
  | .resetCnt | .resetCmd | .ackTurn => false
  | pc => !pc.awaits

namespace Cons

/-- Nothing is held. -/
def Empty (k : Cons) (back : ℕ) : Prop := k.pending = [] ∧ k.cur = none ∧ k.turn = back

/-- A group or a batch is held, and the selector points into it. -/
structure Selects (k : Cons) (back t : ℕ) : Prop where
  cur : k.cur = some t
  back_le : back ≤ t
  lt_turn : t < k.turn
  pending : k.pending = List.range' back (k.turn - 1 - back)
  group : k.groupLo + k.groupN = k.turn → 0 < k.groupN → k.groupLo = back

/-- What holds of the consumer's program point when `back` turns have been returned and `total`
published. -/
def Sits (k : Cons) (back total : ℕ) : Prop :=
  match k.pc with
  | .idle => k.Empty back ∨ ∃ t, k.Selects back t
  | .drain _ => back ≤ k.turn ∧ k.pending ++ k.cur.toList = List.range' back (k.turn - back)
  | .clear _ | .len _ => k.Empty back ∧ k.turn < total
  | .sweep _ n => k.Empty back ∧ 1 ≤ n ∧ k.turn + n ≤ total
  | .sweepLen _ n => k.Empty back ∧ 1 ≤ n ∧ k.turn + n < total
  | .markFree _ => k.Empty (back + 1)
  | .ackFree turn stop =>
      k.pending = [] ∧ k.cur = none ∧ turn = back ∧ k.turn ≤ turn ∧ turn ≤ stop ∧ stop ≤ total
  | .passEos _ rxTurn _ => k.Empty back ∧ rxTurn ≤ total
  | .passFree _ stop _ => k.Empty back ∧ stop ≤ total
  | .dropCmd | .dropShutdown | .dropBump | .dropWakeup | .dropped | .failed => True
  | _ => k.Empty back

/-- A call that keeps the turns in order: one that returns buffers finds the selector on the last
turn handed out, and a selection finds its group still held. -/
def lawful (k : Cons) : Call → Bool
  | .nextBatch | .nextGroup _ | .reset _ | .resetPass _ _ => k.cur.all (· + 1 == k.turn)
  | .selectGroupBatch _ => k.cur.isSome && k.groupLo + k.groupN == k.turn
  | .drop => true

end Cons

/-- A step in which every call is lawful. -/
def lawfulStep (c : Config) (s : State) : Act → Option State
  | .call call => if s.cons.lawful call then step c s (.call call) else none
  | a => step c s a

/-- The threads, the ring and the history agree. -/
structure Sound (c : Config) (s : State) : Prop where
  rx : RxOk c s.mail s.rx s.log s.back
  handshake : Handshake s.mail s.rx s.cons
  turn_le : s.cons.turn ≤ s.log.length
  group_le : s.cons.groupLo + s.cons.groupN ≤ s.cons.turn
  sits : s.cons.Sits s.back s.log.length
  reads : ∀ p ∈ s.reads, s.log[p.1]? = some p.2
  ordered : (s.reads.map Prod.fst).Pairwise (· < ·)
  below : ∀ p ∈ s.reads, p.1 < s.cons.turn + s.cons.pc.swept

/-! ## The handshake under the consumer -/

section Consumer

variable {c : Config} {m m' : Mailbox} {rx : Rx} {k k' : Cons} {log : List PubMeta} {back : ℕ}
  {s : State}

theorem aside_iff {pc : ConsPc} :
    pc.aside = true ↔ pc.awaits = false ∧ pc.asks = false ∧ pc ≠ .ackTurn := by
  cases pc <;> simp [ConsPc.aside, ConsPc.awaits, ConsPc.asks]

/-- A consumer that does not take part in a reset. -/
theorem Handshake.apart (h : Handshake m rx k) (hpc : k.pc.awaits = false)
    (haside : k'.pc.aside = true) (hresets : k.resets ≤ k'.resets) : Handshake m rx k' where
  served_le := h.served_le.trans hresets
  count := h.count
  serving hserving := absurd (hpc.symm.trans (h.serving hserving)) Bool.false_ne_true
  asked hcmd hacking := absurd (hpc.symm.trans (h.asked hcmd hacking).1) Bool.false_ne_true
  asks h' := absurd ((aside_iff.mp haside).2.1.symm.trans h') Bool.false_ne_true
  answering _ hack :=
    absurd (hpc.symm.trans (h.serving (hack ▸ rfl))) Bool.false_ne_true
  answered h' := absurd ((aside_iff.mp haside).1.symm.trans h') Bool.false_ne_true
  taken h' := absurd h' (aside_iff.mp haside).2.2

/-- A consumer that goes on waiting for the answer. -/
theorem Handshake.waiting {pc : ConsPc} (h : Handshake m rx k) (hpc : k.pc.awaits = true)
    (hpc' : pc.awaits = true) (spins : ℕ) :
    Handshake m rx { k with spins := spins, pc := pc } where
  served_le := h.served_le
  count := h.count
  serving _ := hpc'
  asked hcmd hacking := ⟨hpc', (h.asked hcmd hacking).2⟩
  asks hasks := absurd ((asks_of_awaits hpc').symm.trans hasks) Bool.false_ne_true
  answering := h.answering
  answered _ := h.answered hpc
  taken htaken := by
    rw [show pc = .ackTurn from htaken] at hpc'
    cases hpc'

/-- A consumer about to send the command. -/
theorem Handshake.asking (h : Handshake m rx k) (hpc : k.pc.awaits = false)
    (hasks : k.pc.asks = true) : Handshake m rx (k.goto .resetCmd) where
  served_le := h.served_le
  count := h.count
  serving hserving := absurd (hpc.symm.trans (h.serving hserving)) Bool.false_ne_true
  asked hcmd hacking := absurd (hpc.symm.trans (h.asked hcmd hacking).1) Bool.false_ne_true
  asks _ := h.asks hasks
  answering := h.answering
  answered := nofun
  taken := nofun

theorem acking_of_leaving {pc : RxPc} (h : pc.leaving = true) : pc.acking = false := by
  cases pc with
  | wait => rfl
  | _ => exact absurd h Bool.false_ne_true

/-- A return of the oldest buffer leaves the producer where it may be. -/
theorem RxOk.give (h : RxOk c m rx log back) (hback : back < log.length) :
    RxOk c { m with ring := m.ring.give (c.slot back) } rx log (back + 1) where
  ring := c.slot_eq back ▸ h.ring.give hback
  turn := h.turn
  placed :=
    ⟨fun howns => (h.placed.owns howns).trans (by omega), fun hleaving =>
      (h.placed.leaving hleaving).imp_left fun hlt => hlt.trans (by omega)⟩
  rxTurn := h.rxTurn
  eos := h.eos
  ack := h.ack

/-! ## Steps of the consumer -/

/-- A step that reads no record. -/
theorem Sound.assemble (h : Sound c s) {m' : Mailbox} {k' : Cons} {back' : ℕ}
    (hrx : RxOk c m' s.rx s.log back') (hshake : Handshake m' s.rx k')
    (hle : k'.turn ≤ s.log.length) (hgroup : k'.groupLo + k'.groupN ≤ k'.turn)
    (hbelow : s.cons.turn + s.cons.pc.swept ≤ k'.turn + k'.pc.swept)
    (hsits : k'.Sits back' s.log.length) :
    Sound c { s with mail := m', cons := k', back := back' } where
  rx := hrx
  handshake := hshake
  turn_le := hle
  group_le := hgroup
  sits := hsits
  reads := h.reads
  ordered := h.ordered
  below p hp := Nat.lt_of_lt_of_le (h.below p hp) hbelow

/-- What a step that neither returns a buffer nor reads a record keeps of the consumer. -/
structure Cons.Agree (k k' : Cons) : Prop where
  turn : k'.turn = k.turn
  groupLo : k'.groupLo = k.groupLo
  groupN : k'.groupN = k.groupN
  swept : k'.pc.swept = k.pc.swept

theorem Sound.move (h : Sound c s) {m' : Mailbox} {k' : Cons} (hk : s.cons.Agree k')
    (hrx : RxOk c m' s.rx s.log s.back) (hshake : Handshake m' s.rx k')
    (hsits : k'.Sits s.back s.log.length) : Sound c (s.withMail m' k') := by
  apply h.assemble hrx hshake
  · exact hk.turn ▸ h.turn_le
  · rw [hk.turn, hk.groupLo, hk.groupN]
    exact h.group_le
  · rw [hk.turn, hk.swept]
  · exact hsits

/-- A step on a word that the invariants do not read, by a consumer apart from the resets. -/
theorem Sound.quiet (h : Sound c s) {m' : Mailbox} {k' : Cons} (hk : s.cons.Agree k')
    (hm : RxOk c s.mail s.rx s.log s.back ∧ Handshake s.mail s.rx k' →
      RxOk c m' s.rx s.log s.back ∧ Handshake m' s.rx k')
    (hpc : s.cons.pc.awaits = false) (haside : k'.pc.aside = true)
    (hresets : s.cons.resets ≤ k'.resets)
    (hsits : k'.Sits s.back s.log.length) : Sound c (s.withMail m' k') := by
  obtain ⟨hrx, hshake⟩ := hm ⟨h.rx, h.handshake.apart hpc haside hresets⟩
  exact h.move hk hrx hshake hsits

/-- A step on no word at all. -/
theorem Sound.stay (h : Sound c s) {k' : Cons} (hk : s.cons.Agree k')
    (hpc : s.cons.pc.awaits = false) (haside : k'.pc.aside = true)
    (hresets : s.cons.resets ≤ k'.resets) (hsits : k'.Sits s.back s.log.length) :
    Sound c (s.withCons k') :=
  h.move hk h.rx (h.handshake.apart hpc haside hresets) hsits

/-- The return of the oldest buffer. -/
theorem Sound.give (h : Sound c s) {k' : Cons} (hback : s.back < s.log.length)
    (hshake : Handshake s.mail s.rx k') (hle : k'.turn ≤ s.log.length)
    (hgroup : k'.groupLo + k'.groupN ≤ k'.turn)
    (hbelow : s.cons.turn + s.cons.pc.swept ≤ k'.turn + k'.pc.swept)
    (hsits : k'.Sits (s.back + 1) s.log.length) : Sound c (s.give c s.back k') :=
  h.assemble (h.rx.give hback) (hshake.frame rfl rfl rfl) hle hgroup hbelow hsits

/-- The record of a turn in flight. -/
theorem Sound.record_eq (h : Sound c s) {t : ℕ} (hback : s.back ≤ t) (ht : t < s.log.length) :
    s.record c t = s.log[t] := by
  rw [State.record, c.slot_eq]
  exact h.rx.ring.slot t ht hback

/-- The next record is read. -/
theorem Sound.read (h : Sound c s) {k' : Cons} {t : ℕ} (ht : t = s.cons.turn + s.cons.pc.swept)
    (hback : s.back ≤ t) (hlt : t < s.log.length) (hshake : Handshake s.mail s.rx k')
    (hle : k'.turn ≤ s.log.length) (hgroup : k'.groupLo + k'.groupN ≤ k'.turn)
    (hbelow : k'.turn + k'.pc.swept = t + 1) (hsits : k'.Sits s.back s.log.length) :
    Sound c { s with cons := k', reads := s.reads ++ [(t, s.record c t)] } where
  rx := h.rx
  handshake := hshake
  turn_le := hle
  group_le := hgroup
  sits := hsits
  reads p hp := by
    obtain hold | hnew := List.mem_append.mp hp
    · exact h.reads p hold
    · rw [List.mem_singleton.mp hnew, h.record_eq hback hlt]
      exact List.getElem?_eq_getElem hlt
  ordered := by
    rw [List.map_append, List.pairwise_append]
    refine ⟨h.ordered, List.pairwise_singleton _ _, fun a ha b hb => ?_⟩
    obtain ⟨p, hp, rfl⟩ := List.mem_map.mp ha
    obtain rfl := List.mem_singleton.mp hb
    exact ht ▸ h.below p hp
  below p hp := by
    rw [hbelow]
    obtain hold | hnew := List.mem_append.mp hp
    · exact (h.below p hold).trans (by omega)
    · rw [List.mem_singleton.mp hnew]
      exact Nat.lt_succ_self t

/-- Behind the return of the last call's buffers. -/
theorem Sound.afterDrain (h : Sound c s) (hempty : s.cons.Empty s.back)
    (hpc : s.cons.pc.awaits = false) (hswept : s.cons.pc.swept = 0) {m' : Mailbox}
    (hm : ∀ k', RxOk c s.mail s.rx s.log s.back ∧ Handshake s.mail s.rx k' →
      RxOk c m' s.rx s.log s.back ∧ Handshake m' s.rx k') (call : Call) :
    Sound c (s.withMail (s.cons.afterDrain m' call).1 (s.cons.afterDrain m' call).2) := by
  cases call with
  | nextBatch =>
      exact h.quiet ⟨rfl, rfl, rfl, hswept.symm⟩ (hm _) hpc rfl (Nat.le_refl _)
        hempty
  | nextGroup k =>
      exact h.quiet ⟨rfl, rfl, rfl, hswept.symm⟩ (hm _) hpc rfl (Nat.le_refl _)
        hempty
  | selectGroupBatch j =>
      exact h.quiet ⟨rfl, rfl, rfl, hswept.symm⟩ (hm _) hpc rfl (Nat.le_refl _)
        (Or.inl hempty)
  | drop =>
      exact h.quiet ⟨rfl, rfl, rfl, hswept.symm⟩ (hm _) hpc rfl (Nat.le_refl _)
        (Or.inl hempty)
  | resetPass target session =>
      exact h.quiet ⟨rfl, rfl, rfl, hswept.symm⟩ (hm _) hpc rfl (Nat.le_succ _)
        hempty
  | reset session =>
      obtain ⟨hrx, hshake⟩ := hm _ ⟨h.rx, h.handshake⟩
      refine h.move ⟨rfl, rfl, rfl, hswept.symm⟩ (hrx.frame rfl rfl rfl rfl rfl) ?_ ?_
      · exact {
          served_le := Nat.le_succ_of_le hshake.served_le
          count := hshake.count
          serving := fun hserving =>
            absurd (hpc.symm.trans (hshake.serving hserving)) Bool.false_ne_true
          asked := fun hcmd hacking =>
            absurd (hpc.symm.trans (hshake.asked hcmd hacking).1) Bool.false_ne_true
          asks := fun _ => Nat.lt_succ_of_le hshake.served_le
          answering := hshake.answering
          answered := nofun
          taken := nofun }
      · exact hempty

/-- The turn's mark is up only behind its publication. -/
theorem Sound.landed (h : Sound c s) {i t : ℕ} (hfilled : s.mail.ring.filled i = some t) :
    t < s.log.length :=
  h.rx.ring.marked i t hfilled

theorem Sound.loadStep (h : Sound c s) {call : Call} (hpc : s.cons.pc = .load call)
    (hempty : s.cons.Empty s.back) : Sound c (s.loadStep c call) := by
  have hswept : s.cons.pc.swept = 0 := hpc ▸ rfl
  have hawaits : s.cons.pc.awaits = false := hpc ▸ rfl
  rw [State.loadStep]
  split
  · next hfilled =>
    have hlt := h.landed hfilled
    split
    · exact h.stay ⟨rfl, rfl, rfl, hswept.symm⟩ hawaits rfl (Nat.le_refl _)
        ⟨hempty, hlt⟩
    · exact h.stay ⟨rfl, rfl, rfl, hswept.symm⟩ hawaits rfl (Nat.le_refl _)
        ⟨hempty, hlt⟩
  · split
    · refine h.stay ⟨rfl, rfl, rfl, rfl⟩ hawaits (hpc ▸ rfl) (Nat.le_refl _) ?_
      rw [Cons.Sits, hpc]
      exact hempty
    · split
      · exact h.stay ⟨rfl, rfl, rfl, hswept.symm⟩ hawaits rfl (Nat.le_refl _)
          hempty
      · exact h.stay ⟨rfl, rfl, rfl, hswept.symm⟩ hawaits rfl (Nat.le_refl _)
          hempty

/-- The publication that has landed is a marker, a batch, or the first of a group. -/
theorem Sound.lenStep (h : Sound c s) {call : Call} (hpc : s.cons.pc = .len call)
    (hempty : s.cons.Empty s.back) (hlt : s.cons.turn < s.log.length) :
    Sound c (s.lenStep c call) := by
  obtain ⟨hpending, hcur, hturn⟩ := hempty
  have hswept : s.cons.turn = s.cons.turn + s.cons.pc.swept := by rw [hpc]; rfl
  have hawaits : s.cons.pc.awaits = false := hpc ▸ rfl
  have hback : s.back ≤ s.cons.turn := Nat.le_of_eq hturn.symm
  have hgroup := h.group_le
  have hstale : s.cons.groupLo + s.cons.groupN ≤ s.cons.turn + 1 := Nat.le_succ_of_le hgroup
  have hbatch : Sound c { s with
      cons := { s.cons with
        turn := s.cons.turn + 1
        cur := some s.cons.turn
        atEos := false
        pc := .idle }
      reads := s.reads ++ [(s.cons.turn, s.record c s.cons.turn)] } := by
    refine h.read hswept hback hlt ?_ hlt hstale rfl (Or.inr ⟨s.cons.turn, rfl, hback, ?_, ?_, ?_⟩)
    · exact h.handshake.apart hawaits rfl (Nat.le_refl _)
    · exact Nat.lt_succ_self _
    · dsimp only
      rw [hpending, hturn, Nat.add_sub_cancel, Nat.sub_self]
      rfl
    · intro hlast _
      dsimp only at hlast
      omega
  by_cases hlen : (s.record c s.cons.turn).len = 0
  · have heq : s.lenStep c call = _ := if_pos hlen
    rw [heq]
    refine h.read hswept hback hlt ?_ hlt hstale rfl ?_
    · exact h.handshake.apart hawaits rfl (Nat.le_refl _)
    · exact ⟨hpending, hcur, congrArg (· + 1) hturn⟩
  · have heq : s.lenStep c call = _ := if_neg hlen
    rw [heq]
    cases call with
    | nextGroup width =>
        refine h.read hswept hback hlt ?_ h.turn_le hgroup rfl ?_
        · exact h.handshake.apart hawaits rfl (Nat.le_refl _)
        · exact ⟨⟨hpending, hcur, hturn⟩, Nat.le_refl 1, hlt⟩
    | _ => exact hbatch

/-- The sweep is over. -/
theorem Sound.finish (h : Sound c s) {n : ℕ} (hswept : s.cons.pc.swept = n)
    (hawaits : s.cons.pc.awaits = false) (hempty : s.cons.Empty s.back) (hn : 1 ≤ n)
    (hle : s.cons.turn + n ≤ s.log.length) : Sound c (s.withCons (s.cons.finish n)) := by
  obtain ⟨hpending, hcur, hturn⟩ := hempty
  have hshake : Handshake s.mail s.rx (s.cons.finish n) :=
    h.handshake.apart hawaits rfl (Nat.le_refl _)
  apply h.assemble h.rx hshake hle (Nat.le_refl _)
  · rw [hswept]
    exact Nat.le_refl _
  · refine Or.inr ⟨_, rfl, ?_, ?_, ?_, fun _ _ => hturn⟩
    · rw [← hturn]
      exact Nat.le_add_right _ _
    · dsimp only [Cons.finish]
      omega
    · dsimp only [Cons.finish]
      rw [hturn]
      congr 1
      omega

/-- Inside the wait for the answer to a reset. -/
theorem Sound.wait (h : Sound c s) {pc : ConsPc} {m' : Mailbox} {spins : ℕ}
    (hpc : s.cons.pc.awaits = true) (hpc' : pc.awaits = true)
    (hm : RxOk c s.mail s.rx s.log s.back ∧
        Handshake s.mail s.rx { s.cons with spins := spins, pc := pc } →
      RxOk c m' s.rx s.log s.back ∧ Handshake m' s.rx { s.cons with spins := spins, pc := pc })
    (hempty : s.cons.Empty s.back) :
    Sound c (s.withMail m' { s.cons with spins := spins, pc := pc }) := by
  have hbare {pc : ConsPc} (hawaits : pc.awaits = true) :
      pc.swept = 0 ∧ ∀ k : Cons, k.pc = pc → k.Empty s.back → k.Sits s.back s.log.length := by
    cases pc <;> first
      | exact absurd hawaits Bool.false_ne_true
      | exact ⟨rfl, fun k hk hempty => by rw [Cons.Sits, hk]; exact hempty⟩
  obtain ⟨hrx, hshake⟩ := hm ⟨h.rx, h.handshake.waiting hpc hpc' spins⟩
  refine h.move ⟨rfl, rfl, rfl, ?_⟩ hrx hshake ((hbare hpc').2 _ rfl hempty)
  exact (hbare hpc').1.trans (hbare hpc).1.symm

/-- The command of a reset is sent. -/
theorem Sound.send (h : Sound c s) (hpc : s.cons.pc = .resetCmd) (hempty : s.cons.Empty s.back) :
    Sound c (s.withMail { s.mail with cmd := .reset } (s.cons.goto .resetBump)) := by
  have hshake := h.handshake
  have hlt := hshake.asks (hpc ▸ rfl)
  have hidle : s.rx.pc.serving = true → False := fun hserving => by
    have hawaits := hshake.serving hserving
    rw [hpc] at hawaits
    cases hawaits
  refine h.move ⟨rfl, rfl, rfl, hpc ▸ rfl⟩ ?_ ?_ hempty
  · exact { h.rx with placed := ⟨h.rx.placed.owns, fun _ => Or.inr rfl⟩ }
  · exact {
      served_le := hshake.served_le
      count := hshake.count
      serving := fun _ => rfl
      asked := fun _ _ => ⟨rfl, hlt⟩
      asks := nofun
      answering := fun parked hack => (hidle (hack ▸ rfl)).elim
      answered := fun _ hacked => by
        have hcount := hshake.count
        have hacked : s.cons.resets ≤ s.mail.resetAckCnt := hacked
        omega
      taken := nofun }

/-- The answer to a reset has been seen. -/
theorem Sound.acknowledged (h : Sound c s) (hpc : s.cons.pc = .ack) (hempty : s.cons.Empty s.back)
    (hacked : s.cons.resets ≤ s.mail.resetAckCnt) :
    Sound c (s.withCons (s.cons.goto .ackTurn)) := by
  have hshake := h.handshake
  have hle := hshake.served_le
  have hcount := hshake.count
  have hdone : s.rx.pc.serving = false := by
    by_contra hserving
    rw [Bool.not_eq_false] at hserving
    rw [hserving] at hcount
    have : s.rx.served = s.mail.resetAckCnt + 1 := hcount
    omega
  have hseen : Handshake s.mail s.rx (s.cons.goto .ackTurn) := {
    served_le := hle
    count := hcount
    serving := fun hserving => absurd (hdone.symm.trans hserving) Bool.false_ne_true
    asked := fun hcmd hacking => by
      have hlt := (hshake.asked hcmd hacking).2
      omega
    asks := nofun
    answering := hshake.answering
    answered := nofun
    taken := fun _ => hshake.answered (hpc ▸ rfl) hacked }
  exact h.move ⟨rfl, rfl, rfl, hpc ▸ rfl⟩ h.rx hseen hempty

/-- The shutdown comes when no reset is in force. -/
theorem Sound.dismiss (h : Sound c s) (hpc : s.cons.pc = .dropCmd) :
    Sound c (s.withMail { s.mail with cmd := .shutdown } (s.cons.goto .dropShutdown)) := by
  have hawaits : s.cons.pc.awaits = false := hpc ▸ rfl
  have hshake : Handshake s.mail s.rx (s.cons.goto .dropShutdown) :=
    h.handshake.apart hawaits rfl (Nat.le_refl _)
  refine h.move ⟨rfl, rfl, rfl, hpc ▸ rfl⟩ { h.rx with placed := ⟨h.rx.placed.owns, ?_⟩ } ?_ trivial
  · intro hleaving
    apply (h.rx.placed.leaving hleaving).imp_right
    intro hcmd
    have hforce := h.handshake.asked hcmd (acking_of_leaving hleaving)
    exact absurd (hawaits.symm.trans hforce.1) Bool.false_ne_true
  · exact { hshake with asked := nofun }

/-- The head of what is held is the oldest turn. -/
theorem oldest {t : ℕ} {pending : List ℕ} (hpending : k.pending = t :: pending)
    (hheld : k.pending ++ k.cur.toList = List.range' back (k.turn - back)) :
    t = back ∧ back < k.turn ∧
      pending ++ k.cur.toList = List.range' (back + 1) (k.turn - (back + 1)) := by
  obtain hzero | ⟨n, hn⟩ : k.turn - back = 0 ∨ ∃ n, k.turn - back = n + 1 := by
    cases k.turn - back with
    | zero => exact Or.inl rfl
    | succ n => exact Or.inr ⟨n, rfl⟩
  · rw [hzero, hpending] at hheld
    cases hheld
  · rw [hn, hpending, List.range'_succ] at hheld
    obtain ⟨rfl, hrest⟩ := List.cons.inj hheld
    refine ⟨rfl, by omega, hrest.trans ?_⟩
    congr 1
    omega

/-- The selected turn alone is held. -/
theorem last {t : ℕ} (hpending : k.pending = []) (hcur : k.cur = some t)
    (hheld : k.pending ++ k.cur.toList = List.range' back (k.turn - back)) :
    t = back ∧ back + 1 = k.turn := by
  rw [hpending, hcur] at hheld
  have hone : 1 = k.turn - back := by
    have hlen := congrArg List.length hheld
    rwa [List.length_range'] at hlen
  rw [← hone] at hheld
  exact ⟨(List.cons.inj hheld).1, by omega⟩

/-- A step of the consumer. -/
theorem Sound.cons_step (h : Sound c s) {s' : State} (hstep : s.consStep c = some s') :
    Sound c s' := by
  have hsits := h.sits
  rw [Cons.Sits] at hsits
  rw [State.consStep] at hstep
  cases hpc : s.cons.pc with
  | idle =>
      rw [hpc] at hstep
      cases hstep
  | drain call =>
      rw [hpc] at hstep hsits
      obtain ⟨hle, hheld⟩ := hsits
      dsimp only at hstep
      split at hstep
      · next turn pending hpending =>
        obtain rfl := Option.some.inj hstep
        obtain ⟨rfl, hlt, hrest⟩ := oldest hpending hheld
        refine h.give (hlt.trans_le h.turn_le) ?_ h.turn_le h.group_le ?_ ?_
        · exact h.handshake.apart (hpc ▸ rfl) rfl (Nat.le_refl _)
        · rw [hpc]
        · exact ⟨hlt, hrest⟩
      · next turn hpending hcur =>
        obtain rfl := Option.some.inj hstep
        obtain ⟨rfl, hlast⟩ := last hpending hcur hheld
        have hlt : s.back < s.log.length := Nat.lt_of_lt_of_le (Nat.lt_of_succ_le hlast.le) h.turn_le
        refine h.give hlt ?_ h.turn_le h.group_le ?_ ⟨hpending, rfl, hlast.symm⟩
        · exact h.handshake.apart (hpc ▸ rfl) rfl (Nat.le_refl _)
        · rw [hpc]
          exact Nat.le_refl _
      · next hpending hcur =>
        obtain rfl := Option.some.inj hstep
        rw [hpending, hcur] at hheld
        have hzero : 0 = s.cons.turn - s.back := by
          have hlen := congrArg List.length hheld
          rwa [List.length_range'] at hlen
        exact h.afterDrain ⟨hpending, hcur, by omega⟩ (hpc ▸ rfl) (hpc ▸ rfl) (fun _ => id) call
  | load call =>
      rw [hpc] at hstep hsits
      obtain rfl := Option.some.inj hstep
      exact h.loadStep hpc hsits
  | swap call =>
      rw [hpc] at hstep hsits
      obtain rfl := Option.some.inj hstep
      exact h.quiet ⟨rfl, rfl, rfl, hpc ▸ rfl⟩ (fun h => rx_frame h rfl rfl rfl rfl rfl rfl)
        (hpc ▸ rfl) rfl (Nat.le_refl _) hsits
  | observe call =>
      rw [hpc] at hstep hsits
      obtain rfl := Option.some.inj hstep
      exact h.stay ⟨rfl, rfl, rfl, hpc ▸ rfl⟩ (hpc ▸ rfl) rfl (Nat.le_refl _) hsits
  | recheck call o =>
      rw [hpc] at hstep hsits
      obtain rfl := Option.some.inj hstep
      split
      · exact h.stay ⟨rfl, rfl, rfl, hpc ▸ rfl⟩ (hpc ▸ rfl) rfl (Nat.le_refl _) hsits
      · exact h.stay ⟨rfl, rfl, rfl, hpc ▸ rfl⟩ (hpc ▸ rfl) rfl (Nat.le_refl _) hsits
  | sleep call o =>
      rw [hpc] at hstep hsits
      dsimp only at hstep
      split at hstep
      · obtain rfl := Option.some.inj hstep
        exact h.quiet ⟨rfl, rfl, rfl, hpc ▸ rfl⟩ (fun h => rx_frame h rfl rfl rfl rfl rfl rfl)
          (hpc ▸ rfl) rfl (Nat.le_refl _) hsits
      · obtain rfl := Option.some.inj hstep
        exact h.stay ⟨rfl, rfl, rfl, hpc ▸ rfl⟩ (hpc ▸ rfl) rfl (Nat.le_refl _) hsits
  | drainFlag call =>
      rw [hpc] at hstep hsits
      dsimp only at hstep
      split at hstep
      · obtain rfl := Option.some.inj hstep
        exact h.stay ⟨rfl, rfl, rfl, hpc ▸ rfl⟩ (hpc ▸ rfl) rfl (Nat.le_refl _) hsits
      · obtain rfl := Option.some.inj hstep
        exact h.afterDrain hsits (hpc ▸ rfl) (hpc ▸ rfl) (fun _ => id) call
  | drainSwap call =>
      rw [hpc] at hstep hsits
      dsimp only at hstep
      split at hstep
      · obtain rfl := Option.some.inj hstep
        exact h.quiet ⟨rfl, rfl, rfl, hpc ▸ rfl⟩ (fun h => rx_frame h rfl rfl rfl rfl rfl rfl)
          (hpc ▸ rfl) rfl (Nat.le_refl _) hsits
      · obtain rfl := Option.some.inj hstep
        exact h.afterDrain hsits (hpc ▸ rfl) (hpc ▸ rfl) (fun _ => id) call
  | drainBump call =>
      rw [hpc] at hstep hsits
      obtain rfl := Option.some.inj hstep
      exact h.quiet ⟨rfl, rfl, rfl, hpc ▸ rfl⟩ (fun h => rx_frame h rfl rfl rfl rfl rfl rfl)
        (hpc ▸ rfl) rfl (Nat.le_refl _) hsits
  | drainWakeup call =>
      rw [hpc] at hstep hsits
      obtain rfl := Option.some.inj hstep
      have hm (k' : Cons)
          (h : RxOk c s.mail s.rx s.log s.back ∧ Handshake s.mail s.rx k') :
          RxOk c { s.mail with rxWaiter := false } s.rx s.log s.back ∧
            Handshake { s.mail with rxWaiter := false } s.rx k' :=
        rx_frame h rfl rfl rfl rfl rfl rfl
      exact h.afterDrain hsits (hpc ▸ rfl) (hpc ▸ rfl) hm call
  | asleep call =>
      rw [hpc] at hstep hsits
      dsimp only at hstep
      split at hstep
      · cases hstep
      · obtain rfl := Option.some.inj hstep
        exact h.stay ⟨rfl, rfl, rfl, hpc ▸ rfl⟩ (hpc ▸ rfl) rfl (Nat.le_refl _) hsits
  | clear call =>
      rw [hpc] at hstep hsits
      obtain rfl := Option.some.inj hstep
      exact h.quiet ⟨rfl, rfl, rfl, hpc ▸ rfl⟩ (fun h => rx_frame h rfl rfl rfl rfl rfl rfl)
        (hpc ▸ rfl) rfl (Nat.le_refl _) hsits
  | len call =>
      rw [hpc] at hstep hsits
      obtain rfl := Option.some.inj hstep
      exact h.lenStep hpc hsits.1 hsits.2
  | sweep width n =>
      rw [hpc] at hstep hsits
      obtain ⟨hempty, hn, hle⟩ := hsits
      dsimp only at hstep
      split at hstep
      · next hmore =>
        obtain rfl := Option.some.inj hstep
        have hlt := h.landed hmore.2
        exact h.stay ⟨rfl, rfl, rfl, hpc ▸ rfl⟩ (hpc ▸ rfl) rfl (Nat.le_refl _) ⟨hempty, hn, hlt⟩
      · obtain rfl := Option.some.inj hstep
        exact h.finish (hpc ▸ rfl) (hpc ▸ rfl) hempty hn hle
  | sweepLen width n =>
      rw [hpc] at hstep hsits
      obtain ⟨hempty, hn, hlt⟩ := hsits
      have hturn : s.cons.turn = s.back := hempty.2.2
      dsimp only at hstep
      split at hstep
      · obtain rfl := Option.some.inj hstep
        exact h.finish (hpc ▸ rfl) (hpc ▸ rfl) hempty hn hlt.le
      · obtain rfl := Option.some.inj hstep
        refine h.read (hpc ▸ rfl) (hturn ▸ Nat.le_add_right _ _) hlt ?_ h.turn_le h.group_le rfl
          ⟨hempty, Nat.le_succ_of_le hn, hlt⟩
        exact h.handshake.apart (hpc ▸ rfl) rfl (Nat.le_refl _)
  | markFree group =>
      rw [hpc] at hstep hsits
      obtain ⟨hpending, hcur, hturn⟩ := hsits
      obtain rfl := Option.some.inj hstep
      have hback : s.cons.turn - 1 = s.back := by omega
      rw [hback]
      refine h.give (Nat.lt_of_lt_of_le (Nat.lt_of_succ_le hturn.ge) h.turn_le) ?_ h.turn_le
        h.group_le ?_ ⟨hpending, hcur, hturn⟩
      · exact h.handshake.apart (hpc ▸ rfl) rfl (Nat.le_refl _)
      · rw [hpc]
        exact Nat.le_refl _
  | markBump group =>
      rw [hpc] at hstep hsits
      obtain rfl := Option.some.inj hstep
      exact h.quiet ⟨rfl, rfl, rfl, hpc ▸ rfl⟩ (fun h => rx_frame h rfl rfl rfl rfl rfl rfl)
        (hpc ▸ rfl) rfl (Nat.le_refl _) hsits
  | markWakeup group =>
      rw [hpc] at hstep hsits
      obtain rfl := Option.some.inj hstep
      have hrx : RxOk c { s.mail with rxWaiter := false } s.rx s.log s.back :=
        h.rx.frame rfl rfl rfl rfl rfl
      refine h.assemble hrx ?_ h.turn_le ?_ ?_ (Or.inl hsits)
      · exact .frame (h.handshake.apart (hpc ▸ rfl) rfl (Nat.le_refl _)) rfl rfl rfl
      · have hgroup := h.group_le
        dsimp only
        split <;> omega
      · rw [hpc]
        exact Nat.le_refl _
  | resetCnt =>
      rw [hpc] at hstep hsits
      obtain rfl := Option.some.inj hstep
      refine h.move ⟨rfl, rfl, rfl, hpc ▸ rfl⟩ (h.rx.frame rfl rfl rfl rfl rfl) ?_ hsits
      exact .frame (h.handshake.asking (hpc ▸ rfl) (hpc ▸ rfl)) rfl rfl rfl
  | resetCmd =>
      rw [hpc] at hstep hsits
      obtain rfl := Option.some.inj hstep
      exact h.send hpc hsits
  | resetBump =>
      rw [hpc] at hstep hsits
      obtain rfl := Option.some.inj hstep
      exact h.wait (hpc ▸ rfl) rfl (fun h => rx_frame h rfl rfl rfl rfl rfl rfl) hsits
  | resetWakeup =>
      rw [hpc] at hstep hsits
      obtain rfl := Option.some.inj hstep
      exact h.wait (hpc ▸ rfl) rfl (fun h => rx_frame h rfl rfl rfl rfl rfl rfl) hsits
  | ack =>
      rw [hpc] at hstep hsits
      dsimp only at hstep
      split at hstep
      · next hacked =>
        obtain rfl := Option.some.inj hstep
        exact h.acknowledged hpc hsits hacked
      · split at hstep
        · obtain rfl := Option.some.inj hstep
          exact h.wait (hpc ▸ rfl) rfl id hsits
        · obtain rfl := Option.some.inj hstep
          exact h.wait (hpc ▸ rfl) rfl id hsits
  | ackObserve =>
      rw [hpc] at hstep hsits
      obtain rfl := Option.some.inj hstep
      exact h.wait (hpc ▸ rfl) rfl id hsits
  | ackRecheck o =>
      rw [hpc] at hstep hsits
      obtain rfl := Option.some.inj hstep
      split
      · exact h.wait (hpc ▸ rfl) rfl id hsits
      · exact h.wait (hpc ▸ rfl) rfl id hsits
  | ackSleep o =>
      rw [hpc] at hstep hsits
      dsimp only at hstep
      split at hstep
      · obtain rfl := Option.some.inj hstep
        exact h.wait (hpc ▸ rfl) rfl (fun h => rx_frame h rfl rfl rfl rfl rfl rfl) hsits
      · obtain rfl := Option.some.inj hstep
        exact h.wait (hpc ▸ rfl) rfl id hsits
  | ackAsleep =>
      rw [hpc] at hstep hsits
      dsimp only at hstep
      split at hstep
      · cases hstep
      · obtain rfl := Option.some.inj hstep
        exact h.wait (hpc ▸ rfl) rfl id hsits
  | ackTurn =>
      rw [hpc] at hstep hsits
      obtain ⟨hpending, hcur, hturn⟩ := hsits
      obtain rfl := Option.some.inj hstep
      have hstop := h.handshake.taken hpc
      have hle := h.rx.ack
      exact h.stay ⟨rfl, rfl, rfl, hpc ▸ rfl⟩ (hpc ▸ rfl) rfl (Nat.le_refl _) 
        ⟨hpending, hcur, hturn, Nat.le_refl _, hstop, hle⟩
  | ackFree turn stop =>
      rw [hpc] at hstep hsits
      obtain ⟨hpending, hcur, rfl, hle, hstop, htotal⟩ := hsits
      dsimp only at hstep
      split at hstep
      · next hlt =>
        obtain rfl := Option.some.inj hstep
        refine h.give (hlt.trans_le htotal) ?_ h.turn_le h.group_le ?_
          ⟨hpending, hcur, rfl, Nat.le_succ_of_le hle, hlt, htotal⟩
        · exact h.handshake.apart (hpc ▸ rfl) rfl (Nat.le_refl _)
        · rw [hpc]
          exact Nat.le_refl _
      · next hlt =>
        obtain rfl := Option.some.inj hstep
        refine h.assemble h.rx ?_ htotal (h.group_le.trans (hle.trans hstop)) ?_
          (Or.inl ⟨hpending, hcur, ?_⟩)
        · exact h.handshake.apart (hpc ▸ rfl) rfl (Nat.le_refl _)
        · rw [hpc]
          exact hle.trans hstop
        · exact Nat.le_antisymm (Nat.le_of_not_lt hlt) hstop
  | pass target session =>
      rw [hpc] at hstep hsits
      obtain rfl := Option.some.inj hstep
      split
      · exact h.stay ⟨rfl, rfl, rfl, hpc ▸ rfl⟩ (hpc ▸ rfl) rfl (Nat.le_refl _) hsits
      · exact h.stay ⟨rfl, rfl, rfl, hpc ▸ rfl⟩ (hpc ▸ rfl) rfl (Nat.le_refl _) hsits
  | passBake target baked session =>
      rw [hpc] at hstep hsits
      obtain rfl := Option.some.inj hstep
      rw [State.passStep]
      split
      · split
        · exact h.stay ⟨rfl, rfl, rfl, hpc ▸ rfl⟩ (hpc ▸ rfl) rfl (Nat.le_refl _)
            (Or.inl hsits)
        · exact h.stay ⟨rfl, rfl, rfl, hpc ▸ rfl⟩ (hpc ▸ rfl) rfl (Nat.le_refl _) trivial
      · exact h.stay ⟨rfl, rfl, rfl, hpc ▸ rfl⟩ (hpc ▸ rfl) rfl (Nat.le_refl _) hsits
  | passTurn target session =>
      rw [hpc] at hstep hsits
      obtain rfl := Option.some.inj hstep
      have hle := h.rx.rxTurn
      exact h.stay ⟨rfl, rfl, rfl, hpc ▸ rfl⟩ (hpc ▸ rfl) rfl (Nat.le_refl _) ⟨hsits, hle⟩
  | passEos target rxTurn session =>
      rw [hpc] at hstep hsits
      obtain ⟨hempty, hrxTurn⟩ := hsits
      obtain rfl := Option.some.inj hstep
      have hstop : ((State.ceiling s.mail s.cons).map (min rxTurn)).getD rxTurn ≤ s.log.length := by
        cases State.ceiling s.mail s.cons with
        | none => exact hrxTurn
        | some cap => exact (Nat.min_le_left _ _).trans hrxTurn
      exact h.stay ⟨rfl, rfl, rfl, hpc ▸ rfl⟩ (hpc ▸ rfl) rfl (Nat.le_refl _) ⟨hempty, hstop⟩
  | passFree target stop session =>
      rw [hpc] at hstep hsits
      obtain ⟨⟨hpending, hcur, hturn⟩, hstop⟩ := hsits
      dsimp only at hstep
      split at hstep
      · next hlt =>
        obtain rfl := Option.some.inj hstep
        rw [hturn]
        refine h.give (hturn ▸ hlt.trans_le hstop) ?_ ?_ ?_ ?_ ?_
        · exact h.handshake.apart (hpc ▸ rfl) rfl (Nat.le_refl _)
        · exact hturn ▸ hlt.trans_le hstop
        · exact hturn ▸ Nat.le_succ_of_le h.group_le
        · rw [hpc, ← hturn]
          exact Nat.le_succ _
        · exact ⟨⟨hpending, hcur, rfl⟩, hstop⟩
      · split at hstep
        · obtain rfl := Option.some.inj hstep
          exact h.stay ⟨rfl, rfl, rfl, hpc ▸ rfl⟩ (hpc ▸ rfl) rfl (Nat.le_refl _)
            ⟨hpending, hcur, hturn⟩
        · obtain rfl := Option.some.inj hstep
          exact h.stay ⟨rfl, rfl, rfl, hpc ▸ rfl⟩ (hpc ▸ rfl) rfl (Nat.le_refl _)
            ⟨hpending, hcur, hturn⟩
  | passObserve target session =>
      rw [hpc] at hstep hsits
      obtain rfl := Option.some.inj hstep
      exact h.stay ⟨rfl, rfl, rfl, hpc ▸ rfl⟩ (hpc ▸ rfl) rfl (Nat.le_refl _) hsits
  | passRecheck target o session =>
      rw [hpc] at hstep hsits
      obtain rfl := Option.some.inj hstep
      split
      · exact h.stay ⟨rfl, rfl, rfl, hpc ▸ rfl⟩ (hpc ▸ rfl) rfl (Nat.le_refl _) hsits
      · exact h.stay ⟨rfl, rfl, rfl, hpc ▸ rfl⟩ (hpc ▸ rfl) rfl (Nat.le_refl _) hsits
  | passSleep target o session =>
      rw [hpc] at hstep hsits
      dsimp only at hstep
      split at hstep
      · obtain rfl := Option.some.inj hstep
        exact h.quiet ⟨rfl, rfl, rfl, hpc ▸ rfl⟩ (fun h => rx_frame h rfl rfl rfl rfl rfl rfl)
          (hpc ▸ rfl) rfl (Nat.le_refl _) hsits
      · obtain rfl := Option.some.inj hstep
        exact h.stay ⟨rfl, rfl, rfl, hpc ▸ rfl⟩ (hpc ▸ rfl) rfl (Nat.le_refl _) hsits
  | passAsleep target session =>
      rw [hpc] at hstep hsits
      dsimp only at hstep
      split at hstep
      · cases hstep
      · obtain rfl := Option.some.inj hstep
        exact h.stay ⟨rfl, rfl, rfl, hpc ▸ rfl⟩ (hpc ▸ rfl) rfl (Nat.le_refl _) hsits
  | dropCmd =>
      rw [hpc] at hstep
      obtain rfl := Option.some.inj hstep
      exact h.dismiss hpc
  | dropShutdown =>
      rw [hpc] at hstep
      obtain rfl := Option.some.inj hstep
      exact h.quiet ⟨rfl, rfl, rfl, hpc ▸ rfl⟩ (fun h => rx_frame h rfl rfl rfl rfl rfl rfl)
        (hpc ▸ rfl) rfl (Nat.le_refl _) trivial
  | dropBump =>
      rw [hpc] at hstep
      obtain rfl := Option.some.inj hstep
      exact h.quiet ⟨rfl, rfl, rfl, hpc ▸ rfl⟩ (fun h => rx_frame h rfl rfl rfl rfl rfl rfl)
        (hpc ▸ rfl) rfl (Nat.le_refl _) trivial
  | dropWakeup =>
      rw [hpc] at hstep
      obtain rfl := Option.some.inj hstep
      exact h.quiet ⟨rfl, rfl, rfl, hpc ▸ rfl⟩ (fun h => rx_frame h rfl rfl rfl rfl rfl rfl)
        (hpc ▸ rfl) rfl (Nat.le_refl _) trivial
  | dropped =>
      rw [hpc] at hstep
      cases hstep
  | failed =>
      rw [hpc] at hstep
      cases hstep

/-- A return from a futex wait that nobody woke. -/
theorem Sound.cons_return (h : Sound c s) {s' : State} (hstep : s.consReturn = some s') :
    Sound c s' := by
  have hsits := h.sits
  rw [Cons.Sits] at hsits
  rw [State.consReturn] at hstep
  cases hpc : s.cons.pc with
  | asleep call =>
      rw [hpc] at hstep hsits
      obtain rfl := Option.some.inj hstep
      exact h.quiet ⟨rfl, rfl, rfl, hpc ▸ rfl⟩ (fun h => rx_frame h rfl rfl rfl rfl rfl rfl)
        (hpc ▸ rfl) rfl (Nat.le_refl _) hsits
  | ackAsleep =>
      rw [hpc] at hstep hsits
      obtain rfl := Option.some.inj hstep
      exact h.wait (hpc ▸ rfl) rfl (fun h => rx_frame h rfl rfl rfl rfl rfl rfl) hsits
  | passAsleep target session =>
      rw [hpc] at hstep hsits
      obtain rfl := Option.some.inj hstep
      exact h.quiet ⟨rfl, rfl, rfl, hpc ▸ rfl⟩ (fun h => rx_frame h rfl rfl rfl rfl rfl rfl)
        (hpc ▸ rfl) rfl (Nat.le_refl _) hsits
  | _ =>
      rw [hpc] at hstep
      cases hstep

/-- A lawful call begins. -/
theorem Sound.call (h : Sound c s) (hpc : s.cons.pc = .idle) {call : Call}
    (hlawful : s.cons.lawful call = true) : Sound c (s.withCons (s.cons.start c call)) := by
  have hsits := h.sits
  rw [Cons.Sits, hpc] at hsits
  have hdrain (hlast : s.cons.cur.all (· + 1 == s.cons.turn) = true) : s.back ≤ s.cons.turn ∧
      s.cons.pending ++ s.cons.cur.toList = List.range' s.back (s.cons.turn - s.back) := by
    obtain ⟨hpending, hcur, hturn⟩ | ⟨t, hsel⟩ := hsits
    · rw [hpending, hcur, hturn, Nat.sub_self]
      exact ⟨Nat.le_refl _, rfl⟩
    · rw [hsel.cur, Option.all_some, beq_iff_eq] at hlast
      obtain ⟨n, hn⟩ := Nat.exists_eq_add_of_le hsel.back_le
      have hlen : s.cons.turn - s.back = n + 1 := by omega
      have hpend : s.cons.turn - 1 - s.back = n := by omega
      refine ⟨by omega, ?_⟩
      rw [hsel.cur, hsel.pending, hpend, hlen, List.range'_1_concat, hn]
      rfl
  have hgo (pc : ConsPc) (hswept : pc.swept = 0) (haside : pc.aside = true)
      (hsits : (s.cons.goto pc).Sits s.back s.log.length) : Sound c (s.withCons (s.cons.goto pc)) :=
    h.stay ⟨rfl, rfl, rfl, hpc ▸ hswept⟩ (hpc ▸ rfl) haside (Nat.le_refl _) hsits
  cases call with
  | nextBatch => exact hgo _ rfl rfl (hdrain hlawful)
  | nextGroup k => exact hgo _ rfl rfl (hdrain hlawful)
  | selectGroupBatch j =>
      rw [Cons.start]
      split
      · next hj =>
        obtain ⟨hcur, hgroup⟩ := Bool.and_eq_true_iff.mp hlawful
        rw [beq_iff_eq] at hgroup
        obtain ⟨-, hnone, -⟩ | ⟨t, hsel⟩ := hsits
        · rw [hnone] at hcur
          cases hcur
        · have hlo := hsel.group hgroup (Nat.zero_lt_of_lt hj)
          have hidle : { s.cons with cur := some (s.cons.groupLo + j) }.pc = .idle := hpc
          refine h.stay ⟨rfl, rfl, rfl, rfl⟩ (hpc ▸ rfl) (hidle ▸ rfl)
            (Nat.le_refl _) ?_
          rw [Cons.Sits, hidle]
          refine Or.inr ⟨_, rfl, ?_, ?_, hsel.pending, hsel.group⟩
          · exact hlo ▸ Nat.le_add_right _ _
          · dsimp only
            omega
      · exact h
  | reset session =>
      rw [Cons.start]
      split
      · exact hgo _ rfl rfl (hdrain hlawful)
      · exact hgo _ rfl rfl trivial
  | resetPass target session =>
      rw [Cons.start]
      split
      · exact hgo _ rfl rfl (hdrain hlawful)
      · exact hgo _ rfl rfl trivial
  | drop => exact hgo _ rfl rfl trivial

/-! ## Steps of the producer -/

theorem Cons.Sits.mono {back total total' : ℕ} (h : k.Sits back total) (hle : total ≤ total') :
    k.Sits back total' := by
  rw [Cons.Sits] at h ⊢
  cases hpc : k.pc with
  | clear => rw [hpc] at h; exact ⟨h.1, h.2.trans_le hle⟩
  | len => rw [hpc] at h; exact ⟨h.1, h.2.trans_le hle⟩
  | sweep => rw [hpc] at h; exact ⟨h.1, h.2.1, h.2.2.trans hle⟩
  | sweepLen => rw [hpc] at h; exact ⟨h.1, h.2.1, h.2.2.trans_le hle⟩
  | ackFree =>
      rw [hpc] at h
      obtain ⟨h₁, h₂, h₃, h₄, h₅, hstop⟩ := h
      exact ⟨h₁, h₂, h₃, h₄, h₅, hstop.trans hle⟩
  | passEos => rw [hpc] at h; exact ⟨h.1, h.2.trans hle⟩
  | passFree => rw [hpc] at h; exact ⟨h.1, h.2.trans hle⟩
  | _ => rw [hpc] at h; exact h

theorem Sound.rx_step (h : Sound c s) {s' : State} (hstep : s.rxStep c = some s') : Sound c s' := by
  obtain ⟨r, hr, rfl⟩ := Option.map_eq_some_iff.mp hstep
  obtain ⟨hrx, hshake⟩ := Pipeline.rx_step h.rx h.handshake h.turn_le hr
  have hgrow : ∀ more : List PubMeta, s.log.length ≤ (s.log ++ more).length := fun more => by
    rw [List.length_append]
    exact Nat.le_add_right _ _
  exact {
    rx := hrx
    handshake := hshake
    turn_le := h.turn_le.trans (hgrow _)
    group_le := h.group_le
    sits := h.sits.mono (hgrow _)
    reads := fun p hp => by
      have hread := h.reads p hp
      obtain ⟨hlt, -⟩ := List.getElem?_eq_some_iff.mp hread
      exact (List.getElem?_append_left hlt).trans hread
    ordered := h.ordered
    below := h.below }

theorem Sound.rx_return (h : Sound c s) {r : Mailbox × Rx} (hstep : s.rx.spurious s.mail = some r) :
    Sound c { s with mail := r.1, rx := r.2 } := by
  have hmoved : RxOk c r.1 r.2 s.log s.back ∧ Handshake r.1 r.2 s.cons := by
    have hturn := h.rx.turn
    rw [Rx.spurious] at hstep
    split at hstep
    · next w hpc =>
      obtain rfl := Option.some.inj hstep
      refine rx_frame (m := s.mail) ?_ rfl rfl rfl rfl rfl rfl
      apply rx_stand h.rx h.handshake (hpc ▸ rfl)
      rw [hpc] at hturn
      exact hturn ▸ stands_top h.rx.placed hpc s.rx.spins
    · next hpc =>
      obtain rfl := Option.some.inj hstep
      refine rx_frame (m := s.mail) ?_ rfl rfl rfl rfl rfl rfl
      exact rx_goto h.rx h.handshake (hpc ▸ rfl) (hpc ▸ rfl) rfl rfl rfl rfl
    · cases hstep
  exact { h with rx := hmoved.1, handshake := hmoved.2 }

/-! ## Runs -/

theorem Sound.step (h : Sound c s) {a : Act} {s' : State} (hstep : lawfulStep c s a = some s') :
    Sound c s' := by
  cases a with
  | rx => exact h.rx_step hstep
  | rxReturn =>
      obtain ⟨r, hr, rfl⟩ := Option.map_eq_some_iff.mp hstep
      exact h.rx_return hr
  | cons => exact h.cons_step hstep
  | consReturn => exact h.cons_return hstep
  | call call =>
      rw [lawfulStep] at hstep
      split at hstep
      · next hlawful =>
        rw [Pipeline.step] at hstep
        split at hstep
        · next hpc =>
          obtain rfl := Option.some.inj hstep
          exact h.call hpc hlawful
        · cases hstep
      · cases hstep

end Consumer

theorem step_of_lawful {c : Config} {s s' : State} {a : Act}
    (hstep : lawfulStep c s a = some s') : step c s a = some s' := by
  cases a with
  | call call =>
      rw [lawfulStep] at hstep
      split at hstep
      · exact hstep
      · cases hstep
  | _ => exact hstep

theorem sound_init (c : Config) (inner : ReplayTransport) : Sound c (init c inner) where
  rx := {
    ring := Holds.start PubMeta.EMPTY
    turn := rfl
    placed := .of_quiet rfl rfl
    rxTurn := Nat.le_refl 0
    eos := nofun
    ack := Nat.le_refl 0 }
  handshake := {
    served_le := Nat.le_refl 0
    count := rfl
    serving := nofun
    asked := nofun
    asks := nofun
    answering := nofun
    answered := nofun
    taken := nofun }
  turn_le := Nat.le_refl 0
  group_le := Nat.le_refl 0
  sits := Or.inl ⟨rfl, rfl, rfl⟩
  reads := nofun
  ordered := List.Pairwise.nil
  below := nofun

/-- The invariant of every lawful run. -/
theorem sound_of_reachable {c : Config} {inner : ReplayTransport} {s : State}
    (h : Transition.Reachable (lawfulStep c) (init c inner) s) : Sound c s :=
  Transition.invariant (fun _ _ _ hs hstep => hs.step hstep) (sound_init c inner) h

/-! ## Safety -/

/-- A schedule of two heartbeats. -/
def twoHeartbeats : ReplaySchedule where
  events := [⟨1, 0, .heartbeat 1⟩, ⟨2, 0, .heartbeat 1⟩]
  sessionSplit := none

def selfAdvancing : Config where
  shift := 4
  shift_range := by decide
  autoFn := some fun _ => .repeated 0
  elision := false
  schedReplay := false
  prearm := false
  elision_armed := nofun
  replay_armed := nofun
  prearm_armed := nofun

def started : State :=
  init selfAdvancing
    ((ReplayTransport.new [] twoHeartbeats (.repeated 0)).setPollCoalesce 1)

/-- Both frames are published at once, and the consumer takes them. -/
def firstBatch : List Act := [.rx, .rx, .rx, .rx, .call .nextBatch, .cons, .cons, .cons]

theorem firstBatch_run :
    ∃ s, Transition.run (lawfulStep selfAdvancing) started firstBatch = some s ∧
    (s.cons.pc, s.cons.cur, s.reads) = (.idle, some 0, [(0, ⟨2, 0, 2⟩)]) :=
  Option.map_eq_some_iff.mp (by decide +kernel)

/-- In every run of lawful calls, however the threads are interleaved: the records of the turns in
flight are intact, the producer's slot is none of theirs, the batch selected is the record
published for its turn, and the records read are records published, each turn's at most once and in
order. -/
theorem in_flight_intact {c : Config} {inner : ReplayTransport} {s : State}
    (h : Transition.Reachable (lawfulStep c) (init c inner) s) :
    (∀ t (ht : t < s.log.length), s.back ≤ t → s.record c t = s.log[t]) ∧
      (s.rx.pc.owns = true → ∀ t < s.log.length, s.back ≤ t → c.slot t ≠ c.slot s.rx.turn) ∧
      (∀ t, s.cons.pc = .idle → s.cons.cur = some t → s.log[t]? = some (s.record c t)) ∧
      (∀ p ∈ s.reads, s.log[p.1]? = some p.2) ∧ (s.reads.map Prod.fst).Pairwise (· < ·) := by
  have hsound := sound_of_reachable h
  refine ⟨fun t ht hback => hsound.record_eq hback ht, ?_, ?_, hsound.reads, hsound.ordered⟩
  · intro howns t ht hback
    have hroom := hsound.rx.placed.owns howns
    have hbefore : s.rx.pc.after = false := by
      cases hpc : s.rx.pc <;> first | rfl | (rw [hpc] at howns; cases howns)
    have hturn : s.log.length = s.rx.turn := by rw [hsound.rx.turn, hbefore]; rfl
    rw [c.slot_eq, c.slot_eq]
    exact mod_ne_of_lt (hturn ▸ ht) (by omega)
  · intro t hidle hcur
    have hsits := hsound.sits
    rw [Cons.Sits, hidle] at hsits
    obtain ⟨-, hnone, -⟩ | ⟨t', hsel⟩ := hsits
    · cases hnone.symm.trans hcur
    · obtain rfl := Option.some.inj (hsel.cur.symm.trans hcur)
      have hlt := hsel.lt_turn.trans_le hsound.turn_le
      rw [hsound.record_eq hsel.back_le hlt]
      exact List.getElem?_eq_getElem hlt

theorem in_flight_intact_firstBatch :
    ∃ s, Transition.run (lawfulStep selfAdvancing) started firstBatch = some s ∧
      s.reads = [(0, ⟨2, 0, 2⟩)] ∧ s.log[0]? = some (s.record selfAdvancing 0) := by
  obtain ⟨s, hrun, hend⟩ := firstBatch_run
  obtain ⟨hidle, hcur, hreads⟩ : s.cons.pc = .idle ∧ s.cons.cur = some 0 ∧ s.reads = _ := by
    simpa using hend
  exact ⟨s, hrun, hreads, (in_flight_intact ⟨firstBatch, hrun⟩).2.2.1 0 hidle hcur⟩

/-- In every run of lawful calls a buffer has been returned once for every earlier turn on it that
the consumer has given back, the producer is never more than a ring ahead of the returns, and
between calls the consumer holds exactly the turns from there up to its cursor. -/
theorem returns_counted {c : Config} {inner : ReplayTransport} {s : State}
    (h : Transition.Reachable (lawfulStep c) (init c inner) s) :
    (∀ i < c.nbuf, s.mail.ring.freed i = uses c.nbuf i s.back) ∧
      s.back ≤ s.log.length ∧ s.log.length ≤ s.back + c.nbuf ∧
      (s.cons.pc = .idle →
        s.cons.turn = s.back + (s.cons.pending.length + s.cons.cur.toList.length)) := by
  have hsound := sound_of_reachable h
  refine ⟨hsound.rx.ring.freed, hsound.rx.ring.back_le, hsound.rx.ring.ahead, fun hidle => ?_⟩
  have hsits := hsound.sits
  rw [Cons.Sits, hidle] at hsits
  obtain ⟨hpending, hcur, hturn⟩ | ⟨t, hsel⟩ := hsits
  · rw [hpending, hcur]
    exact hturn
  · have hback := hsel.back_le
    have hlt := hsel.lt_turn
    rw [hsel.cur, hsel.pending, List.length_range', Option.toList_some, List.length_singleton]
    omega

theorem returns_counted_firstBatch :
    ∃ s, Transition.run (lawfulStep selfAdvancing) started firstBatch = some s ∧
      s.reads = [(0, ⟨2, 0, 2⟩)] ∧
      s.cons.turn = s.back + (s.cons.pending.length + s.cons.cur.toList.length) := by
  obtain ⟨s, hrun, hend⟩ := firstBatch_run
  obtain ⟨hidle, -, hreads⟩ : s.cons.pc = .idle ∧ s.cons.cur = some 0 ∧ s.reads = _ := by
    simpa using hend
  exact ⟨s, hrun, hreads, (returns_counted ⟨firstBatch, hrun⟩).2.2.2 hidle⟩

end HftProj.Transport.Pipeline
