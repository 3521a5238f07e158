import HftProj.Arbitrator.Types
import HftProj.Lib.Arena
import HftProj.Protocol.Encode

/-!
# Rendering scheduled events

A schedule lists the frames of a replay; a frame of messages is cut out of the ground
truth, a chain of length-prefixed messages, from a message cursor that remembers where
it stands. `frameOf` is what an event renders to, read off the ground truth alone; the
renderer makes it from every cursor that earlier renders left behind.
-/

namespace HftProj.Transport

open HftProj.Lib HftProj.Protocol.Moldudp64 HftProj.Arbitrator

inductive SchedKind where
  | packet (firstSeq firstMsg : UInt64) (count : UInt16)
  | heartbeat (nextSeq : UInt64)
  | endOfSession (nextSeq : UInt64)
  deriving DecidableEq

structure SchedEvent where
  releaseVt : UInt64
  feed : FeedId
  kind : SchedKind
  deriving DecidableEq

structure ReplaySchedule where
  events : List SchedEvent
  sessionSplit : Option (UInt64 × SessionId)
  deriving DecidableEq

/-- The length prefix at a position of the ground truth, with its own two bytes. -/
def prefixedLen (gt : List UInt8) (pos : ℕ) : ℕ := 2 + fromBeBytes (slice gt pos (pos + 2))

/-! ## The message cursor -/

structure Cursor where
  byteOffset : ℕ := 0
  msgIndex : ℕ := 0
  deriving DecidableEq

/-- The forward loop of `seek_msg`; the flag says that it was not cut short. -/
@[grind =]
def Cursor.advance (gt : List UInt8) : ℕ → Cursor → Cursor × Bool
  | 0, c => (c, true)
  | n + 1, c =>
      if gt.length < c.byteOffset + 2 then (c, false)
      else advance gt n ⟨c.byteOffset + prefixedLen gt c.byteOffset, c.msgIndex + 1⟩

def Cursor.seekMsg (c : Cursor) (gt : List UInt8) (target : ℕ) : Option ℕ × Cursor :=
  let c := if target < c.msgIndex then {} else c
  let r := c.advance gt (target - c.msgIndex)
  if r.2 ∧ r.1.byteOffset ≤ gt.length then (some r.1.byteOffset, r.1) else (none, r.1)

/-! ## Rendering -/

def ARENA_SLOT_SIZE : ℕ := 1500

/-- The position behind `n` messages; the last one may run past the end. -/
@[grind =]
def skipMsgs (gt : List UInt8) : ℕ → ℕ → Option ℕ
  | 0, pos => some pos
  | n + 1, pos =>
      if gt.length < pos + 2 then none else skipMsgs gt n (pos + prefixedLen gt pos)

def ReplaySchedule.effectiveSession (sched : ReplaySchedule) (session : SessionId)
    (kind : SchedKind) : SessionId :=
  match sched.sessionSplit with
  | some (splitM, nextSess) =>
      match kind with
      | .packet _ firstMsg _ => if splitM ≤ firstMsg then nextSess else session
      | .heartbeat _ | .endOfSession _ => nextSess
  | none => session

/-- The length rendered, the slot and the cursor left behind. -/
structure Rendered where
  len : Option ℕ
  slot : List UInt8
  cursor : Cursor
  deriving DecidableEq

def renderEventStandalone (gt : List UInt8) (ev : SchedEvent) (sched : ReplaySchedule)
    (session : SessionId) (slot : List UInt8) (cursor : Cursor) : Rendered :=
  if slot.length < HEADER_LEN then ⟨none, slot, cursor⟩
  else
    let slot := writeAt slot 0 (sched.effectiveSession session ev.kind).1
    let header (seq count : ℕ) := writeAt (writeAt slot 10 (toBeBytes 8 seq)) 18 (toBeBytes 2 count)
    match ev.kind with
    | .heartbeat nextSeq => ⟨some HEADER_LEN, header nextSeq.toNat HEARTBEAT_COUNT, cursor⟩
    | .endOfSession nextSeq => ⟨some HEADER_LEN, header nextSeq.toNat EOS_COUNT, cursor⟩
    | .packet firstSeq firstMsg count =>
        let slot := header firstSeq.toNat count.toNat
        match cursor.seekMsg gt firstMsg.toNat with
        | (none, cursor) => ⟨none, slot, cursor⟩
        | (some startPos, cursor) =>
            match skipMsgs gt count.toNat startPos with
            | none => ⟨none, slot, cursor⟩
            | some curPos =>
                let totalLen := HEADER_LEN + (curPos - startPos)
                if slot.length < totalLen ∨ gt.length < curPos then ⟨none, slot, cursor⟩
                else ⟨some totalLen, writeAt slot HEADER_LEN (slice gt startPos curPos),
                  ⟨curPos, firstMsg.toNat + count.toNat⟩⟩

/-- The cursor left by a list of earlier renders, whatever their sessions and slots. -/
def cursorAfter (gt : List UInt8) (sched : ReplaySchedule)
    (history : List (SchedEvent × SessionId × List UInt8)) : Cursor :=
  history.foldl (fun c h => (renderEventStandalone gt h.1 sched h.2.1 h.2.2 c).cursor) {}

/-! ## What an event renders to -/

/-- Where a message of the ground truth starts. -/
def msgOffset (gt : List UInt8) (n : ℕ) : Option ℕ := skipMsgs gt n 0

/-- The messages of a packet, when they are all there. -/
def payload (gt : List UInt8) (firstMsg count : ℕ) : Option (List UInt8) := do
  let start ← msgOffset gt firstMsg
  let stop ← skipMsgs gt count start
  if start ≤ gt.length ∧ stop ≤ gt.length then some (slice gt start stop) else none

def SchedKind.seq : SchedKind → ℕ
  | .packet firstSeq _ _ => firstSeq.toNat
  | .heartbeat nextSeq | .endOfSession nextSeq => nextSeq.toNat

/-- The count field of the header. -/
def SchedKind.wireCount : SchedKind → ℕ
  | .packet _ _ count => count.toNat
  | .heartbeat _ => HEARTBEAT_COUNT
  | .endOfSession _ => EOS_COUNT

def SchedKind.body (gt : List UInt8) : SchedKind → Option (List UInt8)
  | .packet _ firstMsg count => payload gt firstMsg.toNat count.toNat
  | .heartbeat _ | .endOfSession _ => some []

/-- The part of a frame behind its session. -/
def SchedKind.rest (kind : SchedKind) (body : List UInt8) : List UInt8 :=
  toBeBytes 8 kind.seq ++ (toBeBytes 2 kind.wireCount ++ body)

/-- The body of an event that fits a slot. -/
def bodyOf (gt : List UInt8) (kind : SchedKind) : Option (List UInt8) :=
  (kind.body gt).filter fun body => HEADER_LEN + body.length ≤ ARENA_SLOT_SIZE

def frameOf (gt : List UInt8) (sched : ReplaySchedule) (session : SessionId)
    (kind : SchedKind) : Option (List UInt8) :=
  (bodyOf gt kind).map fun body => (sched.effectiveSession session kind).1 ++ kind.rest body

/-! ## Walking the ground truth -/

variable {gt : List UInt8} {sched : ReplaySchedule} {session : SessionId}

theorem prefixedLen_pos (gt : List UInt8) (pos : ℕ) : 2 ≤ prefixedLen gt pos := by
  unfold prefixedLen
  omega

theorem skipMsgs_le {n pos stop : ℕ} (h : skipMsgs gt n pos = some stop) : pos + 2 * n ≤ stop := by
  induction n generalizing pos with
  | zero => cases h; omega
  | succ n ih =>
      rw [skipMsgs] at h
      split at h
      · cases h
      · have := ih h
        have := prefixedLen_pos gt pos
        omega

theorem skipMsgs_add (m n pos : ℕ) :
    skipMsgs gt (m + n) pos = (skipMsgs gt m pos).bind (skipMsgs gt n) := by
  induction m generalizing pos with
  | zero => rw [Nat.zero_add]; rfl
  | succ m ih =>
      rw [Nat.add_right_comm, skipMsgs, skipMsgs]
      split
      · rfl
      · exact ih _

/-- A cursor that stands where its message starts. -/
def Cursor.Synced (gt : List UInt8) (c : Cursor) : Prop :=
  msgOffset gt c.msgIndex = some c.byteOffset

theorem Cursor.synced_start : Cursor.Synced gt {} := rfl

/-- The forward loop finds the message that many places ahead, or stops in step. -/
theorem Cursor.advance_spec (n : ℕ) {c : Cursor} (hc : c.Synced gt) :
    (c.advance gt n).1.Synced gt ∧
      (if (c.advance gt n).2 then some (c.advance gt n).1.byteOffset else none) =
        msgOffset gt (c.msgIndex + n) := by
  induction n generalizing c with
  | zero => exact ⟨hc, hc.symm⟩
  | succ n ih =>
      rw [Cursor.advance]
      by_cases hend : gt.length < c.byteOffset + 2
      · rw [if_pos hend]
        refine ⟨hc, ?_⟩
        rw [msgOffset, skipMsgs_add, ← msgOffset, hc]
        simp [skipMsgs, hend]
      · rw [if_neg hend]
        have hnext : Cursor.Synced gt
            ⟨c.byteOffset + prefixedLen gt c.byteOffset, c.msgIndex + 1⟩ := by
          rw [Cursor.Synced, msgOffset, skipMsgs_add, ← msgOffset, hc]
          simp [skipMsgs, hend]
        have := ih hnext
        rw [show c.msgIndex + (n + 1) = c.msgIndex + 1 + n by omega]
        exact this

/-- Seeking from wherever the cursor stands finds the message, if it starts in the
ground truth. -/
theorem Cursor.seekMsg_spec {c : Cursor} (hc : c.Synced gt) (target : ℕ) :
    (c.seekMsg gt target).1 = (msgOffset gt target).filter (· ≤ gt.length) ∧
      (c.seekMsg gt target).2.Synced gt := by
  obtain ⟨d, hd, hle, hseek⟩ : ∃ d : Cursor, d.Synced gt ∧ d.msgIndex ≤ target ∧
      (if target < c.msgIndex then {} else c) = d := by
    by_cases hback : target < c.msgIndex
    · exact ⟨{}, Cursor.synced_start, Nat.zero_le _, if_pos hback⟩
    · exact ⟨c, hc, by omega, if_neg hback⟩
  obtain ⟨hsync, hfind⟩ := Cursor.advance_spec (target - d.msgIndex) hd
  rw [Nat.add_sub_cancel' hle] at hfind
  simp only [Cursor.seekMsg, hseek]
  rw [← hfind]
  cases (d.advance gt (target - d.msgIndex)).2 with
  | false => exact ⟨rfl, hsync⟩
  | true =>
      by_cases hin : (d.advance gt (target - d.msgIndex)).1.byteOffset ≤ gt.length
      · simp [Option.filter, hin, hsync]
      · simp [Option.filter, hin, hsync]

/-! ## The renderer makes the frame -/

/-- Filling in the header keeps the length of the slot and fixes its first 20 bytes. -/
theorem header_written {slot : List UInt8} (hslot : HEADER_LEN ≤ slot.length) (sess : SessionId)
    (seq count : ℕ) :
    let filled := writeAt (writeAt (writeAt slot 0 sess.1) 10 (toBeBytes 8 seq)) 18
      (toBeBytes 2 count)
    filled.length = slot.length ∧
      filled.take HEADER_LEN = sess.1 ++ (toBeBytes 8 seq ++ toBeBytes 2 count) := by
  have hsess := sess.2
  simp only [HEADER_LEN] at hslot
  have h₁ : (writeAt slot 0 sess.1).length = slot.length := writeAt_length (by omega)
  have h₂ : (writeAt (writeAt slot 0 sess.1) 10 (toBeBytes 8 seq)).length = slot.length := by
    rw [writeAt_length (by rw [toBeBytes_length]; omega), h₁]
  refine ⟨by rw [writeAt_length (by rw [toBeBytes_length]; omega), h₂], ?_⟩
  have t₁ := take_writeAt_append sess.1 (Nat.zero_le slot.length)
  have t₂ := take_writeAt_append (toBeBytes 8 seq)
    (show 10 ≤ (writeAt slot 0 sess.1).length by omega)
  have t₃ := take_writeAt_append (toBeBytes 2 count)
    (show 18 ≤ (writeAt (writeAt slot 0 sess.1) 10 (toBeBytes 8 seq)).length by omega)
  rw [toBeBytes_length] at t₂ t₃
  rw [hsess, List.take_zero, List.nil_append, Nat.zero_add] at t₁
  rw [show HEADER_LEN = 18 + 2 from rfl, t₃, t₂, t₁, List.append_assoc]

/-- From every cursor in step and every slot the renderer makes the frame of the event,
and leaves the cursor in step. -/
theorem renderEventStandalone_spec (sched : ReplaySchedule) (ev : SchedEvent)
    (session : SessionId) {slot : List UInt8} {cursor : Cursor} (hslot : slot.length = ARENA_SLOT_SIZE) (hc : cursor.Synced gt) :
    let r := renderEventStandalone gt ev sched session slot cursor
    r.slot.length = ARENA_SLOT_SIZE ∧ r.cursor.Synced gt ∧
      r.len.map (fun len => r.slot.take len) = frameOf gt sched session ev.kind ∧
      ∀ len, r.len = some len → len ≤ ARENA_SLOT_SIZE := by
  have hhead : ¬slot.length < HEADER_LEN := by rw [hslot]; decide
  have hlarge : HEADER_LEN ≤ slot.length := by rw [hslot]; decide
  simp only [renderEventStandalone, if_neg hhead]
  cases hkind : ev.kind with
  | heartbeat nextSeq =>
      obtain ⟨hlen, htake⟩ := header_written hlarge
        (sched.effectiveSession session (.heartbeat nextSeq)) nextSeq.toNat HEARTBEAT_COUNT
      refine ⟨by rw [hlen, hslot], hc, ?_, fun len h => by cases h; decide⟩
      simp only [Option.map_some, htake]
      rfl
  | endOfSession nextSeq =>
      obtain ⟨hlen, htake⟩ := header_written hlarge
        (sched.effectiveSession session (.endOfSession nextSeq)) nextSeq.toNat EOS_COUNT
      refine ⟨by rw [hlen, hslot], hc, ?_, fun len h => by cases h; decide⟩
      simp only [Option.map_some, htake]
      rfl
  | packet firstSeq firstMsg count =>
      obtain ⟨hlen, htake⟩ := header_written hlarge
        (sched.effectiveSession session (.packet firstSeq firstMsg count)) firstSeq.toNat
        count.toNat
      obtain ⟨hfind, hsync⟩ := Cursor.seekMsg_spec hc firstMsg.toNat
      simp only
      generalize writeAt (writeAt (writeAt slot 0 _) 10 _) 18 _ = filled at hlen htake ⊢
      have hframe : frameOf gt sched session (.packet firstSeq firstMsg count) =
          (bodyOf gt (.packet firstSeq firstMsg count)).map fun body =>
            filled.take HEADER_LEN ++ body := by
        rw [htake, frameOf]
        congr 1
        funext body
        simp [SchedKind.rest, SchedKind.seq, SchedKind.wireCount]
      rw [hframe, bodyOf, SchedKind.body, payload]
      generalize cursor.seekMsg gt firstMsg.toNat = found at hfind hsync ⊢
      obtain ⟨start, cursor⟩ := found
      simp only at hfind hsync
      cases hoff : msgOffset gt firstMsg.toNat with
      | none =>
          rw [hoff, Option.filter_none] at hfind
          subst hfind
          exact ⟨by rw [hlen, hslot], hsync, rfl, fun _ h => by cases h⟩
      | some off =>
          rw [hoff] at hfind
          by_cases hin : off ≤ gt.length
          · simp only [Option.filter, hin, decide_true, if_true] at hfind
            subst hfind
            simp only [Option.bind_eq_bind, Option.bind_some]
            cases hskip : skipMsgs gt count.toNat off with
            | none => exact ⟨by rw [hlen, hslot], hsync, rfl, fun _ h => by cases h⟩
            | some stop =>
                have hle := skipMsgs_le hskip
                simp only [Option.bind_some, hin, true_and]
                by_cases hstop : stop ≤ gt.length
                · have hbody : (slice gt off stop).length = stop - off := slice_length hstop
                  by_cases hfit : HEADER_LEN + (stop - off) ≤ ARENA_SLOT_SIZE
                  · rw [if_neg (by rw [hlen, hslot]; omega)]
                    refine ⟨?_, ?_, ?_, fun len h => by cases h; exact hfit⟩
                    · rw [writeAt_length (by rw [hbody, hlen, hslot]; exact hfit), hlen, hslot]
                    · change msgOffset gt (firstMsg.toNat + count.toNat) = some stop
                      rw [msgOffset, skipMsgs_add, ← msgOffset, hoff]
                      exact hskip
                    · have ht := take_writeAt_append (slice gt off stop)
                        (show HEADER_LEN ≤ filled.length by rw [hlen]; exact hlarge)
                      rw [hbody] at ht
                      simp [hstop, hbody, hfit, ht, Option.filter]
                  · rw [if_pos (by rw [hlen, hslot]; omega)]
                    refine ⟨by rw [hlen, hslot], hsync, ?_, fun _ h => by cases h⟩
                    simpa [hstop, hbody, Option.filter] using hfit
                · rw [if_pos (by omega)]
                  refine ⟨by rw [hlen, hslot], hsync, ?_, fun _ h => by cases h⟩
                  simp [hstop]
          · simp only [Option.filter, hin, decide_false, Bool.false_eq_true, if_false] at hfind
            subst hfind
            refine ⟨by rw [hlen, hslot], hsync, ?_, fun _ h => by cases h⟩
            cases hskip : skipMsgs gt count.toNat off with
            | none => simp [hskip]
            | some stop => simp [hskip, hin]

/-- Rendering keeps the cursor in step, whatever the slot. -/
theorem renderEventStandalone_synced (ev : SchedEvent) (session : SessionId) (slot : List UInt8)
    {cursor : Cursor} (hc : cursor.Synced gt) :
    (renderEventStandalone gt ev sched session slot cursor).cursor.Synced gt := by
  unfold renderEventStandalone
  split
  · exact hc
  · cases ev.kind with
    | heartbeat nextSeq => exact hc
    | endOfSession nextSeq => exact hc
    | packet firstSeq firstMsg count =>
        obtain ⟨hfind, hsync⟩ := Cursor.seekMsg_spec hc firstMsg.toNat
        simp only
        generalize cursor.seekMsg gt firstMsg.toNat = found at hfind hsync
        obtain ⟨start, cursor⟩ := found
        cases start with
        | none => exact hsync
        | some off =>
            obtain ⟨hoff, -⟩ := Option.filter_eq_some_iff.mp hfind.symm
            simp only
            cases hskip : skipMsgs gt count.toNat off with
            | none => exact hsync
            | some stop =>
                simp only
                split
                · exact hsync
                · change msgOffset gt (firstMsg.toNat + count.toNat) = some stop
                  rw [msgOffset, skipMsgs_add, ← msgOffset, hoff]
                  exact hskip

/-- Every history of renders leaves the cursor in step. -/
theorem cursorAfter_synced (history : List (SchedEvent × SessionId × List UInt8)) :
    (cursorAfter gt sched history).Synced gt := by
  suffices h : ∀ c : Cursor, c.Synced gt → (history.foldl (fun c h =>
      (renderEventStandalone gt h.1 sched h.2.1 h.2.2 c).cursor) c).Synced gt from
    h {} Cursor.synced_start
  induction history with
  | nil => exact fun c hc => hc
  | cons h rest ih => exact fun c hc => ih _ (renderEventStandalone_synced h.1 h.2.1 h.2.2 hc)

end HftProj.Transport
