import HftProj.Testkit.SigFabric
import Mathlib.Algebra.BigOperators.Finprod

/-!
# Displayed volume

The deltas of one side sum up to the remaining quantity of the live orders of that side, as
long as no birth lands on a live reference.
-/

namespace HftProj.Testkit.SigFabric

open HftProj.Lib
open HftProj.Protocol

/-! ## The volume of a register file -/

/-- The remaining quantity that a register shows on a side. -/
def remOn (ask : Bool) : Option Register → ℕ
  | none => 0
  | some r => if r.ask = ask then r.rem else 0

/-- The remaining quantity of all live orders of a side. -/
noncomputable def volume (ask : Bool) (f : RegisterFile) : ℕ := finsum fun id => remOn ask (f id)

/-- A register file that a run can reach: finitely many live orders, 32-bit quantities. -/
structure Bounded (f : RegisterFile) : Prop where
  finite : {id | f id ≠ none}.Finite
  rem_lt : ∀ id r, f id = some r → r.rem < 2 ^ 32

section Volume

variable {f : RegisterFile} {ask : Bool} {id : ℕ} {v : Option Register} {r : Register}

theorem support_subset (ask : Bool) (f : RegisterFile) :
    Function.support (fun id => remOn ask (f id)) ⊆ {id | f id ≠ none} := by
  intro id hid hnone
  rw [Function.mem_support, hnone] at hid
  exact hid rfl

/-- Writing one register changes the volume by that register. -/
theorem volume_update (hf : {id | f id ≠ none}.Finite) (ask : Bool) (id : ℕ)
    (v : Option Register) :
    volume ask (Function.update f id v) + remOn ask (f id) = volume ask f + remOn ask v := by
  classical
  let ids := insert id hf.toFinset
  have hmem : id ∈ ids := Finset.mem_insert_self _ _
  have hsum : ∀ g : RegisterFile, (∀ id' ≠ id, g id' = f id') →
      volume ask g = remOn ask (g id) + ∑ id' ∈ ids.erase id, remOn ask (f id') := by
    intro g hg
    have hsupport : Function.support (fun id => remOn ask (g id)) ⊆ ids := by
      intro id' hid'
      by_cases heq : id' = id
      · exact heq ▸ Finset.mem_coe.mpr hmem
      · rw [Function.mem_support, hg id' heq] at hid'
        have hlive := support_subset ask f hid'
        exact Finset.mem_coe.mpr (Finset.mem_insert_of_mem (hf.mem_toFinset.mpr hlive))
    rw [volume, finsum_eq_sum_of_support_subset _ hsupport, ← Finset.add_sum_erase _ _ hmem]
    congr 1
    apply Finset.sum_congr rfl
    intro id' hid'
    rw [hg id' (Finset.ne_of_mem_erase hid')]
  rw [hsum _ fun id' hne => Function.update_of_ne hne .., hsum f fun _ _ => rfl,
    Function.update_self]
  omega

namespace Bounded

theorem update (h : Bounded f) (hv : ∀ r, v = some r → r.rem < 2 ^ 32) :
    Bounded (Function.update f id v) := by
  constructor
  · apply (h.finite.insert id).subset
    intro id' hlive
    by_cases heq : id' = id
    · exact Or.inl heq
    · right
      rwa [Set.mem_ofPred_eq, Function.update_of_ne heq] at hlive
  · intro id' r hr
    rw [Function.update_apply] at hr
    split at hr
    · exact hv r hr
    · exact h.rem_lt id' r hr

theorem step {m : Msg} (h : Bounded f) (hm : m.Sized) : Bounded (f.step m) := by
  have hreduce : ∀ oref q, Bounded (Function.update f oref ((f oref).map (Register.reduce q))) := by
    intro oref q
    apply h.update
    intro r hr
    obtain ⟨r₀, hr₀, rfl⟩ := Option.map_eq_some_iff.mp hr
    exact (Nat.sub_le _ _).trans_lt (h.rem_lt oref r₀ hr₀)
  cases m with
  | add oref side shares price =>
      apply h.update
      rintro r ⟨⟩
      exact hm.1
  | executed oref q => exact hreduce oref q
  | executedPx oref q printable execPx => exact hreduce oref q
  | cancel oref q => exact hreduce oref q
  | delete oref => exact h.update (fun _ hr => by cases hr)
  | replace oref nref nq npx =>
      cases hr : f oref with
      | none => rwa [RegisterFile.step_absent rfl hr]
      | some r =>
          rw [RegisterFile.step_replace hr]
          apply (h.update fun _ hr => by cases hr).update
          rintro r ⟨⟩
          exact hm.1
  | print price => exact h
  | other => exact h

end Bounded

/-! ## One message -/

/-- The message does not give birth to a reference that is live. -/
def Fresh (f : RegisterFile) : Msg → Prop
  | .add oref _ _ _ => f oref = none
  | .replace oref nref _ _ => f oref ≠ none → nref = oref ∨ f nref = none
  | _ => True

theorem toInt_sub {a b : ℕ} (ha : a < 2 ^ 32) (hb : b < 2 ^ 32) :
    (BitVec.ofNat 64 a - BitVec.ofNat 64 b).toInt = (a : ℤ) - b := by
  rw [BitVec.toInt_sub, BitVec.toInt_ofNat', BitVec.toInt_ofNat']
  simp only [Int.bmod]
  omega

theorem toInt_ofNat {a : ℕ} (ha : a < 2 ^ 32) : (BitVec.ofNat 64 a).toInt = a := by
  have h := toInt_sub ha (show 0 < 2 ^ 32 by decide)
  simpa using h

theorem toInt_neg {a : ℕ} (ha : a < 2 ^ 32) : (-BitVec.ofNat 64 a).toInt = -(a : ℤ) := by
  have h := toInt_sub (show 0 < 2 ^ 32 by decide) ha
  simpa using h

theorem toInt_ite {p : Prop} [Decidable p] {delta : BitVec 64} {i : ℤ} (h : delta.toInt = i) :
    (if p then delta else 0).toInt = if p then i else 0 := by
  split
  · exact h
  · rfl

theorem hit_eq {m : Msg} {oref : ℕ} (href : m.ref = some oref) : m.hit f = f oref := by
  rw [Msg.hit, href, Option.bind_some]

theorem volume_absent {m : Msg} {oref : ℕ} (href : m.ref = some oref) (hnone : f oref = none)
    (pos : ℕ) :
    ((m.effect pos (m.hit f)).token.side ask).toInt + volume ask f = volume ask (f.step m) := by
  rw [RegisterFile.step_absent href hnone, hit_eq href, hnone, Msg.effect_absent pos href]
  cases ask <;> simp [Effect.anomaly, Token.empty, Token.side]

/-- A quantity taken from an order leaves its side. -/
theorem volume_reduce (hf : Bounded f) {oref q : ℕ} (hr : f oref = some r) (hq : q < 2 ^ 32)
    (sv pv keeps : ℕ) :
    ((Effect.reduction r q sv pv keeps).token.side ask).toInt + volume ask f =
      volume ask (Function.update f oref ((f oref).map (Register.reduce q))) := by
  have hrem := hf.rem_lt oref r hr
  have hupdate := volume_update hf.finite ask oref (some (Register.reduce q r))
  have hmin : min q r.rem < 2 ^ 32 := by omega
  have hnew : remOn ask (some (Register.reduce q r)) = if r.ask = ask then r.rem - q else 0 := rfl
  have hold : remOn ask (some r) = if r.ask = ask then r.rem else 0 := rfl
  rw [hr, hold, hnew] at hupdate
  rw [hr, Option.map_some, Effect.reduction, Token.side_volume, toInt_ite (toInt_neg hmin)]
  split_ifs at hupdate ⊢ <;> omega

/-- The delta of a message is the change of the volume. -/
theorem volume_step {m : Msg} (hf : Bounded f) (hm : m.Sized) (hfresh : Fresh f m) (pos : ℕ)
    (ask : Bool) :
    ((m.effect pos (m.hit f)).token.side ask).toInt + volume ask f = volume ask (f.step m) := by
  cases m with
  | add oref side shares price =>
      have hupdate := volume_update hf.finite ask oref (some ⟨sideAsk side, price, shares⟩)
      rw [show f oref = none from hfresh] at hupdate
      show ((Token.volume 0 0 (sideAsk side) _).side ask).toInt + _ =
        (volume ask (Function.update f oref _) : ℤ)
      rw [Token.side_volume, toInt_ite (toInt_ofNat hm.1)]
      simp only [remOn] at hupdate
      split_ifs at hupdate ⊢ <;> omega
  | executed oref q =>
      cases hr : f oref with
      | none => exact volume_absent rfl hr pos
      | some r =>
          rw [hit_eq rfl, hr]
          exact volume_reduce hf hr hm pos r.px 1
  | executedPx oref q printable execPx =>
      cases hr : f oref with
      | none => exact volume_absent rfl hr pos
      | some r =>
          rw [hit_eq rfl, hr]
          exact volume_reduce hf hr hm.1 _ _ 0
  | cancel oref q =>
      cases hr : f oref with
      | none => exact volume_absent rfl hr pos
      | some r =>
          rw [hit_eq rfl, hr]
          exact volume_reduce hf hr hm 0 0 0
  | delete oref =>
      cases hr : f oref with
      | none => exact volume_absent rfl hr pos
      | some r =>
          have hrem := hf.rem_lt oref r hr
          have hupdate := volume_update hf.finite ask oref none
          rw [hr] at hupdate
          rw [hit_eq rfl, hr]
          show ((Token.volume 0 0 r.ask _).side ask).toInt + _ =
            (volume ask (Function.update f oref none) : ℤ)
          rw [Token.side_volume, toInt_ite (toInt_neg hrem)]
          simp only [remOn] at hupdate
          split_ifs at hupdate ⊢ <;> omega
  | replace oref nref nq npx =>
      cases hr : f oref with
      | none => exact volume_absent rfl hr pos
      | some r =>
          have hrem := hf.rem_lt oref r hr
          have hremove := volume_update hf.finite ask oref none
          have hremoved : Bounded (Function.update f oref none) :=
            hf.update fun _ hr => by cases hr
          have hbirth := volume_update hremoved.finite ask nref (some ⟨r.ask, npx, nq⟩)
          have hnew : Function.update f oref none nref = none := by
            rw [Function.update_apply]
            split
            · rfl
            · next hne =>
                exact (hfresh (by rw [hr]; exact Option.some_ne_none r)).resolve_left hne
          rw [hr] at hremove
          rw [hnew] at hbirth
          rw [RegisterFile.step_replace hr, hit_eq rfl, hr]
          show ((Token.volume 0 0 r.ask _).side ask).toInt + _ = _
          rw [Token.side_volume, toInt_ite (toInt_sub hm.1 hrem)]
          simp only [remOn] at hremove hbirth
          split_ifs at hremove hbirth ⊢ <;> omega
  | print price => simp [Msg.effect, Token.side, RegisterFile.step, Msg.next]
  | other => simp [Msg.effect, Token.empty, Token.side, RegisterFile.step, Msg.next]

end Volume

/-! ## Runs -/

/-- No A, F or resolved U of a list gives birth to a live reference. -/
def FreshBirths (ms : List (ℕ × Msg)) : Prop :=
  ∀ pre m post, ms = pre ++ m :: post → Fresh (.after (pre.map Prod.snd)) m.2

theorem empty_bounded : Bounded fun _ => none := by
  constructor
  · simp
  · rintro id r ⟨⟩

/-- The deltas of a list of messages sum up to the volume behind it. -/
theorem volume_effects {ms : List (ℕ × Msg)} (hsized : ∀ m ∈ ms, m.2.Sized)
    (hfresh : FreshBirths ms) :
    Bounded (.after (ms.map Prod.snd)) ∧ ∀ ask,
      ((RegisterFile.effects (fun _ => none) ms).map fun e => (e.token.side ask).toInt).sum =
        volume ask (.after (ms.map Prod.snd)) := by
  induction ms using List.reverseRecOn with
  | nil =>
      refine ⟨empty_bounded, fun ask => ?_⟩
      simp [RegisterFile.effects, RegisterFile.after, volume, remOn]
  | append_singleton ms m ih =>
      have hpre : FreshBirths ms := fun pre m' post heq =>
        hfresh pre m' (post ++ [m]) (by simp [heq])
      obtain ⟨hbounded, hsum⟩ := ih (fun m' hm' => hsized m' (List.mem_append_left _ hm')) hpre
      have hm := hsized m (by simp)
      rw [List.map_append, List.map_singleton, RegisterFile.after_append_singleton]
      refine ⟨hbounded.step hm, fun ask => ?_⟩
      rw [RegisterFile.effects_append, List.map_append, List.sum_append, hsum ask,
        ← volume_step hbounded hm (hfresh ms m [] rfl) m.1 ask, add_comm]
      congr 1
      exact List.sum_singleton

/-- A wrapping sum is the sum of the signed values. -/
theorem sum_eq_ofInt (deltas : List (BitVec 64)) :
    deltas.sum = BitVec.ofInt 64 (deltas.map BitVec.toInt).sum := by
  induction deltas with
  | nil => rfl
  | cons d deltas ih =>
      rw [List.sum_cons, ih, List.map_cons, List.sum_cons, BitVec.ofInt_add, BitVec.ofInt_toInt]

theorem messages_sized {us : List (ℕ × List UInt8)} : ∀ m ∈ messages us, m.2.Sized := by
  intro m hm
  obtain ⟨u, -, hu⟩ := List.mem_filterMap.mp hm
  split at hu
  · cases hu
  · obtain ⟨m', hm', rfl⟩ := Option.map_eq_some_iff.mp hu
    cases hdecode : decode u.2 with
    | error f =>
        rw [hdecode] at hm'
        cases hm'
    | ok m'' =>
        rw [hdecode] at hm'
        cases hm'
        exact decode_sized hdecode

theorem messages_append (pre post : List (ℕ × List UInt8)) :
    messages (pre ++ post) = messages pre ++ messages post := List.filterMap_append

/-- Behind every part of the stream, the deltas of each side sum up to the remaining quantity
of its live orders, as signed numbers and as wrapping sums. -/
theorem displayed_volume (bodies : List (List UInt8)) (hvalid : Valid (stream bodies))
    (href : ∀ m ∈ messages (stream bodies), m.2.ref ≠ some 0)
    (hfresh : FreshBirths (messages (stream bodies))) (pre post : List (ℕ × List UInt8))
    (hsplit : stream bodies = pre ++ post) :
    match walk pre with
    | .error fault => fault = .capacityOverflow ∧ 2 ^ 57 ≤ pre.length
    | .ok s =>
        (s.tokens.map fun t => t.d0.toInt).sum = volume false (registers pre) ∧
        (s.tokens.map fun t => t.d1.toInt).sum = volume true (registers pre) ∧
        (s.tokens.map Token.d0).sum = BitVec.ofNat 64 (volume false (registers pre)) ∧
        (s.tokens.map Token.d1).sum = BitVec.ofNat 64 (volume true (registers pre)) := by
  rw [hsplit] at hvalid href hfresh
  rw [messages_append] at href hfresh
  have hpre : FreshBirths (messages pre) := fun pre' m post' heq =>
    hfresh pre' m (post' ++ messages post) (by simp [heq])
  rcases walk_registers hvalid.prefix fun m hm => href m (List.mem_append_left _ hm) with
    ⟨hrun, hbig⟩ | ⟨s, hrun, -, htokens, -⟩
  · rw [hrun]
    exact ⟨rfl, hbig⟩
  · obtain ⟨-, hsum⟩ := volume_effects messages_sized hpre
    have hside : ∀ ask, ((s.tokens.map fun t => t.side ask).map BitVec.toInt).sum =
        volume ask (registers pre) := by
      intro ask
      rw [htokens, List.map_map, List.map_map]
      exact hsum ask
    have hwrap : ∀ ask, (s.tokens.map fun t => t.side ask).sum =
        BitVec.ofNat 64 (volume ask (registers pre)) := by
      intro ask
      rw [sum_eq_ofInt, hside, BitVec.ofInt_natCast]
    rw [hrun]
    refine ⟨?_, ?_, hwrap false, hwrap true⟩
    · rw [← hside false, List.map_map]
      rfl
    · rw [← hside true, List.map_map]
      rfl

/-- An add of 100 shares to buy, reference 5. -/
def addFive : List UInt8 :=
  'A'.toUInt8 :: List.replicate 10 0 ++ [0, 0, 0, 0, 0, 0, 0, 5, 'B'.toUInt8, 0, 0, 0, 100] ++
    List.replicate 8 0 ++ [0, 0, 0, 10]

theorem stream_addFive : stream [0 :: 36 :: addFive] = [(1, addFive)] := by
  rw [stream, List.flatMap_singleton, units_single (by decide)]
  rfl

theorem displayed_volume_addFive :
    match walk [(1, addFive)] with
    | .error fault => fault = .capacityOverflow ∧ 2 ^ 57 ≤ 1
    | .ok s =>
        (s.tokens.map fun t => t.d0.toInt).sum = volume false (registers [(1, addFive)]) ∧
        (s.tokens.map fun t => t.d1.toInt).sum = volume true (registers [(1, addFive)]) ∧
        (s.tokens.map Token.d0).sum = BitVec.ofNat 64 (volume false (registers [(1, addFive)])) ∧
        (s.tokens.map Token.d1).sum =
          BitVec.ofNat 64 (volume true (registers [(1, addFive)])) := by
  have hmessages : messages (stream [0 :: 36 :: addFive]) = [(1, .add 5 66 100 10)] := by
    rw [stream_addFive]
    decide
  apply displayed_volume [0 :: 36 :: addFive] _ _ _ [(1, addFive)] [] stream_addFive
  · intro u hu
    rw [stream_addFive] at hu
    rw [List.mem_singleton.mp hu]
    rfl
  · intro m hm
    rw [hmessages] at hm
    rw [List.mem_singleton.mp hm]
    decide
  · intro pre m post heq
    rw [hmessages] at heq
    cases pre with
    | nil =>
        cases heq
        rfl
    | cons _ pre => simp at heq

end HftProj.Testkit.SigFabric
