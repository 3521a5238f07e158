import HftProj.Protocol.Itch5
import HftProj.Testkit.OrderCache
import Mathlib.Data.BitVec

/-!
# The register file

The message stream of the resolve stage, the fields it decodes, and the sequential register
file that says what a message resolves to: one register for each order reference, with the
side, the price and the remaining quantity. Both resolve paths are compared with it.
-/

namespace HftProj.Testkit

open HftProj.Lib
open HftProj.Protocol

/-! ## The stream -/

/-- The `[u16 len][msg]` units of a body; a truncated trailing unit breaks out. -/
@[grind =]
def units : List UInt8 → List (List UInt8)
  | hi :: lo :: rest =>
      let l := fromBeBytes [hi, lo]
      if l > rest.length then [] else rest.take l :: units (rest.drop l)
  | _ => []
termination_by body => body.length
decreasing_by simp only [List.length_drop, List.length_cons]; omega

/-- All units with their wire positions, from 1 on. -/
def stream (bodies : List (List UInt8)) : List (ℕ × List UInt8) :=
  ((bodies.flatMap units).zipIdx 1).map Prod.swap

/-- A body of one unit. -/
theorem units_single {hi lo : UInt8} {msg : List UInt8}
    (h : fromBeBytes [hi, lo] = msg.length) : units (hi :: lo :: msg) = [msg] := by
  rw [units, h, if_neg (Nat.lt_irrefl _), List.take_length, List.drop_length, units]
  nofun

/-! ## The decode -/

/-- The fields that the resolve stage reads, by message type. -/
inductive Msg where
  | add (oref side shares price : ℕ)
  | executed (oref q : ℕ)
  | executedPx (oref q printable execPx : ℕ)
  | cancel (oref q : ℕ)
  | delete (oref : ℕ)
  | replace (oref nref nq npx : ℕ)
  | print (price : ℕ)
  | other
  deriving DecidableEq

/-- The big-endian number at `i`. -/
def beAt (msg : List UInt8) (i n : ℕ) : ℕ := fromBeBytes (slice msg i (i + n))

/-- Reading behind the end of a message panics. -/
def reaching (msg : List UInt8) (n : ℕ) (m : Msg) : Except Fault Msg :=
  if n ≤ msg.length then .ok m else .error .outOfBounds

/-- The field law of both resolve paths. -/
def decode (msg : List UInt8) : Except Fault Msg :=
  let t := msg.getD 0 0
  if t = 'A'.toUInt8 ∨ t = 'F'.toUInt8 then
    reaching msg 36 (.add (beAt msg 11 8) (beAt msg 19 1) (beAt msg 20 4) (beAt msg 32 4))
  else if t = 'E'.toUInt8 then
    reaching msg 23 (.executed (beAt msg 11 8) (beAt msg 19 4))
  else if t = 'C'.toUInt8 then
    reaching msg 36
      (.executedPx (beAt msg 11 8) (beAt msg 19 4) (beAt msg 31 1) (beAt msg 32 4))
  else if t = 'X'.toUInt8 then
    reaching msg 23 (.cancel (beAt msg 11 8) (beAt msg 19 4))
  else if t = 'D'.toUInt8 then
    reaching msg 19 (.delete (beAt msg 11 8))
  else if t = 'U'.toUInt8 then
    reaching msg 35 (.replace (beAt msg 11 8) (beAt msg 19 8) (beAt msg 27 4) (beAt msg 31 4))
  else if t = 'P'.toUInt8 then
    reaching msg 36 (.print (beAt msg 32 4))
  else if t = 'Q'.toUInt8 then
    reaching msg 31 (.print (beAt msg 27 4))
  else .ok .other

theorem beAt_lt (msg : List UInt8) (i n : ℕ) : beAt msg i n < 256 ^ n := by
  apply (fromBeBytes_lt _).trans_le
  apply Nat.pow_le_pow_right (by decide)
  simp only [slice, List.length_take, List.length_drop]
  omega

/-- The quantities that a message carries are 32-bit. -/
def Msg.Sized : Msg → Prop
  | .add _ _ shares price => shares < 2 ^ 32 ∧ price < 2 ^ 32
  | .executed _ q => q < 2 ^ 32
  | .executedPx _ q _ execPx => q < 2 ^ 32 ∧ execPx < 2 ^ 32
  | .cancel _ q => q < 2 ^ 32
  | .delete _ => True
  | .replace _ _ nq npx => nq < 2 ^ 32 ∧ npx < 2 ^ 32
  | .print price => price < 2 ^ 32
  | .other => True

theorem reaching_eq_ok {msg : List UInt8} {n : ℕ} {m m' : Msg} (h : reaching msg n m = .ok m') :
    m = m' := by
  rw [reaching] at h
  split at h
  · exact Except.ok.inj h
  · cases h

theorem decode_sized {msg : List UInt8} {m : Msg} (h : decode msg = .ok m) : m.Sized := by
  have hlt : ∀ i, beAt msg i 4 < 2 ^ 32 := fun i => beAt_lt msg i 4
  simp only [decode] at h
  split_ifs at h
  · exact reaching_eq_ok h ▸ ⟨hlt _, hlt _⟩
  · exact reaching_eq_ok h ▸ hlt _
  · exact reaching_eq_ok h ▸ ⟨hlt _, hlt _⟩
  · exact reaching_eq_ok h ▸ hlt _
  · exact reaching_eq_ok h ▸ trivial
  · exact reaching_eq_ok h ▸ ⟨hlt _, hlt _⟩
  · exact reaching_eq_ok h ▸ hlt _
  · exact reaching_eq_ok h ▸ hlt _
  · exact Except.ok.inj h ▸ trivial

/-- A validated message is long enough for every field that its type has. -/
theorem decode_of_validate {msg : List UInt8} (h : Itch5.validate msg = .ok ()) :
    3 ≤ msg.length ∧ ∃ m, decode msg = .ok m := by
  have hlong := (Itch5.validate_length h).1
  refine ⟨by omega, ?_⟩
  have hlen : msg.length = Itch5.LENGTH (msg.getD 0 0) := by
    cases msg with
    | nil => cases h
    | cons t rest =>
        simp only [Itch5.validate] at h
        split at h
        · cases h
        split at h
        · cases h
        · next hsame => exact not_not.mp hsame
  have hreach : ∀ n m, n ≤ msg.length → ∃ m', reaching msg n m = .ok m' :=
    fun n m hn => ⟨m, if_pos hn⟩
  simp only [decode]
  split_ifs with hA hE hC hX hD hU hP hQ
  · apply hreach
    rw [hlen]
    rcases hA with hA | hA <;> rw [hA] <;> decide
  · apply hreach
    rw [hlen, hE]
    decide
  · apply hreach
    rw [hlen, hC]
    decide
  · apply hreach
    rw [hlen, hX]
    decide
  · apply hreach
    rw [hlen, hD]
    decide
  · apply hreach
    rw [hlen, hU]
    decide
  · apply hreach
    rw [hlen, hP]
    decide
  · apply hreach
    rw [hlen, hQ]
    decide
  · exact ⟨_, rfl⟩

/-! ## Tokens -/

/-- The resolved token of a message: print position, print price, bid and ask delta. -/
structure Token where
  sv : ℕ
  pv : ℕ
  d0 : BitVec 64
  d1 : BitVec 64
  deriving DecidableEq

namespace Token

/-- The empty token ⊥. -/
def empty : Token := ⟨0, 0, 0, 0⟩

/-- A volume delta on one side. -/
def volume (sv pv : ℕ) (ask : Bool) (delta : BitVec 64) : Token :=
  if ask then ⟨sv, pv, 0, delta⟩ else ⟨sv, pv, delta, 0⟩

/-- The delta on one side. -/
def side (t : Token) (ask : Bool) : BitVec 64 := if ask then t.d1 else t.d0

theorem side_volume (sv pv : ℕ) (a ask : Bool) (delta : BitVec 64) :
    (volume sv pv a delta).side ask = if a = ask then delta else 0 := by
  cases a <;> cases ask <;> rfl

end Token

def sideAsk (side : ℕ) : Bool := side = 'S'.toNat

/-- The print flag of a C message. -/
def isPrint (printable : ℕ) : Bool := printable = 'Y'.toNat ∨ printable = 1

/-! ## The sequential meaning -/

/-- The live state of an order reference. -/
structure Register where
  ask : Bool
  px : ℕ
  rem : ℕ
  deriving DecidableEq

abbrev RegisterFile := ℕ → Option Register

/-- The clamp policy: the remaining quantity stays at zero, the order stays. -/
def Register.reduce (q : ℕ) (r : Register) : Register := { r with rem := r.rem - q }

/-- What a message adds to the columns and to the counts. -/
structure Effect where
  token : Token
  anomalies : ℕ
  clamps : ℕ
  zeroRemKeeps : ℕ
  deriving DecidableEq

namespace Effect

def anomaly : Effect := ⟨.empty, 1, 0, 0⟩

/-- A quantity taken from a register. -/
def reduction (r : Register) (q sv pv keeps : ℕ) : Effect where
  token := .volume sv pv r.ask (-BitVec.ofNat 64 (min q r.rem))
  anomalies := 0
  clamps := if q > r.rem then 1 else 0
  zeroRemKeeps := if q > r.rem then keeps else 0

end Effect

namespace Msg

/-- The reference that a message resolves. -/
def ref : Msg → Option ℕ
  | .executed oref _ | .executedPx oref _ _ _ | .cancel oref _ | .delete oref
  | .replace oref _ _ _ => some oref
  | .add .. | .print _ | .other => none

/-- What a message resolves to, given the register that its reference hits. -/
def effect (pos : ℕ) (hit : Option Register) : Msg → Effect
  | .add _ side shares _ => ⟨.volume 0 0 (sideAsk side) (BitVec.ofNat 64 shares), 0, 0, 0⟩
  | .executed _ q =>
      match hit with
      | none => .anomaly
      | some r => .reduction r q pos r.px 1
  | .executedPx _ q printable execPx =>
      match hit with
      | none => .anomaly
      | some r =>
          .reduction r q (if isPrint printable then pos else 0)
            (if isPrint printable then execPx else 0) 0
  | .cancel _ q =>
      match hit with
      | none => .anomaly
      | some r => .reduction r q 0 0 0
  | .delete _ =>
      match hit with
      | none => .anomaly
      | some r => ⟨.volume 0 0 r.ask (-BitVec.ofNat 64 r.rem), 0, 0, 0⟩
  | .replace _ _ nq _ =>
      match hit with
      | none => .anomaly
      | some r => ⟨.volume 0 0 r.ask (BitVec.ofNat 64 nq - BitVec.ofNat 64 r.rem), 0, 0, 0⟩
  | .print price => ⟨⟨pos, price, 0, 0⟩, 0, 0, 0⟩
  | .other => ⟨.empty, 0, 0, 0⟩

/-- The register file behind a message, given the register that its reference hits. -/
def next (f : RegisterFile) (hit : Option Register) : Msg → RegisterFile
  | .add oref side shares price => Function.update f oref (some ⟨sideAsk side, price, shares⟩)
  | .executed oref q | .executedPx oref q _ _ | .cancel oref q =>
      Function.update f oref (hit.map (Register.reduce q))
  | .delete oref => Function.update f oref none
  | .replace oref nref nq npx =>
      match hit with
      | none => f
      | some r => Function.update (Function.update f oref none) nref (some ⟨r.ask, npx, nq⟩)
  | .print _ | .other => f

/-- The register that a message hits. -/
def hit (f : RegisterFile) (m : Msg) : Option Register := m.ref.bind f

end Msg

namespace RegisterFile

def step (f : RegisterFile) (m : Msg) : RegisterFile := m.next f (m.hit f)

/-- The register file behind a list of messages: a reference is live when an A, an F or a
resolved U gave birth to it and no D and no resolved U has taken it since. -/
def after (ms : List Msg) : RegisterFile := ms.foldl step fun _ => none

theorem after_append_singleton (ms : List Msg) (m : Msg) :
    after (ms ++ [m]) = step (after ms) m := by
  rw [after, after, List.foldl_append, List.foldl_cons, List.foldl_nil]

/-- A message as the threads of a batch see it: a replace of an absent order starts a thread
for its new reference all the same, and that thread has no register. -/
def threadStep (f : RegisterFile) : Msg → RegisterFile
  | .replace oref nref nq npx =>
      if f oref = none then Function.update f nref none else f.step (.replace oref nref nq npx)
  | m => f.step m

/-- What the messages of a list resolve to, one after the other. -/
@[grind =]
def effects (f : RegisterFile) : List (ℕ × Msg) → List Effect
  | [] => []
  | (pos, m) :: ms => m.effect pos (m.hit f) :: effects (f.step m) ms

theorem effects_append (f : RegisterFile) (ms ms' : List (ℕ × Msg)) :
    effects f (ms ++ ms') = effects f ms ++ effects ((ms.map Prod.snd).foldl step f) ms' := by
  induction ms generalizing f with
  | nil => rfl
  | cons m ms ih => exact congrArg _ (ih (f.step m.2))

end RegisterFile

/-- An absent reference changes nothing. -/
theorem Msg.next_absent {f : RegisterFile} {m : Msg} {oref : ℕ} (href : m.ref = some oref)
    (habsent : f oref = none) : m.next f none = f := by
  have hsame : Function.update f oref none = f := by
    rw [← habsent, Function.update_eq_self]
  cases m <;> cases href
  · exact hsame
  · exact hsame
  · exact hsame
  · exact hsame
  · rfl

/-- An absent reference is an anomaly, whatever the type. -/
theorem Msg.effect_absent {m : Msg} {oref : ℕ} (pos : ℕ) (href : m.ref = some oref) :
    m.effect pos none = .anomaly := by
  cases m <;> cases href <;> rfl

namespace RegisterFile

variable {f : RegisterFile} {m : Msg} {oref nref nq npx : ℕ}

theorem step_absent (href : m.ref = some oref) (habsent : f oref = none) : f.step m = f := by
  rw [step, Msg.hit, href, Option.bind_some, habsent]
  exact Msg.next_absent href habsent

theorem step_replace {r : Register} (hr : f oref = some r) :
    f.step (.replace oref nref nq npx) =
      Function.update (Function.update f oref none) nref (some ⟨r.ask, npx, nq⟩) := by
  rw [step, show (Msg.replace oref nref nq npx).hit f = some r from hr]
  rfl

end RegisterFile

/-- Liveness behind a message depends on no more than liveness before it. -/
theorem Msg.next_live {f g : RegisterFile} {hit hit' : Option Register} (m : Msg)
    (hfile : ∀ id, f id = none ↔ g id = none) (hhit : hit = none ↔ hit' = none) (id : ℕ) :
    m.next f hit id = none ↔ m.next g hit' id = none := by
  have hupdate : ∀ {f g : RegisterFile} {v w : Option Register} (k : ℕ),
      (∀ id, f id = none ↔ g id = none) → (v = none ↔ w = none) →
      ∀ id, Function.update f k v id = none ↔ Function.update g k w id = none := by
    intro f g v w k hfile hvalue id
    rw [Function.update_apply, Function.update_apply]
    split
    · exact hvalue
    · exact hfile id
  have hnone : (none : Option Register) = none ↔ (none : Option Register) = none := Iff.rfl
  have hreduce : ∀ q, hit.map (Register.reduce q) = none ↔ hit'.map (Register.reduce q) = none := by
    intro q
    rw [Option.map_eq_none_iff, Option.map_eq_none_iff, hhit]
  cases m with
  | add oref side shares price => exact hupdate oref hfile (by simp) id
  | executed oref q => exact hupdate oref hfile (hreduce q) id
  | executedPx oref q printable execPx => exact hupdate oref hfile (hreduce q) id
  | cancel oref q => exact hupdate oref hfile (hreduce q) id
  | delete oref => exact hupdate oref hfile hnone id
  | replace oref nref nq npx =>
      cases hit with
      | none =>
          rw [hhit.mp rfl]
          exact hfile id
      | some r =>
          cases hit' with
          | none => exact absurd (hhit.mpr rfl) (Option.some_ne_none r)
          | some r' =>
              exact hupdate nref (hupdate oref hfile hnone) (by simp) id
  | print price => exact hfile id
  | other => exact hfile id

end HftProj.Testkit
