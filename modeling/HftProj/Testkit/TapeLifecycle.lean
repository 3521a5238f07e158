import HftProj.Testkit.LedgerDedup
import HftProj.Testkit.RandomStream

/-!
# The lifecycle of a random tape

Each arm of the synthesis emits a valid message whose reference is a live order, and carries the
pool on to the register file behind the message. Along the tape the orders that are referred to
have therefore been born before and have something left, and the resolve stage has nothing to
report.
-/

namespace HftProj.Testkit.RandomStream

open HftProj.Lib
open HftProj.Lib.Stateful
open HftProj.Protocol
open HftProj.Protocol.Moldudp64
open HftProj.Testkit.SigFabric

/-! ## The bytes of a message -/

section Bytes

variable {out data : List UInt8} {ty : UInt8} {len off i n x : ℕ}

/-- A message under construction: its length, and its type in the first byte. -/
structure Framed (ty : UInt8) (len : ℕ) (out : List UInt8) : Prop where
  length : out.length = len
  head : out.getD 0 0 = ty

theorem Framed.write (h : Framed ty len out)
    (hroom : off + data.length ≤ len) (hoff : 0 < off) : Framed ty len (writeAt out off data) where
  length := by rw [writeAt_length (h.length ▸ hroom), h.length]
  head := by
    rw [List.getD_eq_getElem?_getD, writeAt_getElem? (h.length ▸ hroom), if_neg (by omega),
      ← List.getD_eq_getElem?_getD, h.head]

theorem header_framed (g : TapeGen) (ty : UInt8) (locate : ℕ) (h : 11 ≤ out.length) :
    Framed ty out.length (header g ty locate out) := by
  have hfirst : Framed ty out.length (writeAt out 0 [ty]) :=
    { length := writeAt_length (by rw [List.length_singleton]; omega)
      head := rfl }
  apply Framed.write
  · apply Framed.write
    · apply hfirst.write
      · rw [toBeBytes_length]
        omega
      · decide
    · rw [toBeBytes_length]
      omega
    · decide
  · rw [toBeBytes_length]
    omega
  · decide

/-- Writes one after the other. -/
def writes (ws : List (ℕ × List UInt8)) (out : List UInt8) : List UInt8 :=
  ws.foldl (fun out w => writeAt out w.1 w.2) out

/-- The writes stay behind the type and inside the message. -/
def Inside (len : ℕ) (ws : List (ℕ × List UInt8)) : Prop :=
  ∀ w ∈ ws, 0 < w.1 ∧ w.1 + w.2.length ≤ len

theorem Framed.writes {ws : List (ℕ × List UInt8)} (h : Framed ty len out) (hws : Inside len ws) :
    Framed ty len (writes ws out) := by
  induction ws generalizing out with
  | nil => exact h
  | cons w ws ih =>
      obtain ⟨hpos, hroom⟩ := hws w List.mem_cons_self
      exact ih (h.write hroom hpos) fun w' hw' => hws w' (List.mem_cons_of_mem _ hw')

/-- Writes that do not meet a field leave it alone. -/
theorem Framed.beAt_beside {ws : List (ℕ × List UInt8)} (h : Framed ty len out)
    (hws : Inside len ws) (hd : ∀ w ∈ ws, i + n ≤ w.1 ∨ w.1 + w.2.length ≤ i) :
    beAt (RandomStream.writes ws out) i n = beAt out i n := by
  induction ws generalizing out with
  | nil => rfl
  | cons w ws ih =>
      obtain ⟨hpos, hroom⟩ := hws w List.mem_cons_self
      calc
        beAt (RandomStream.writes ws (writeAt out w.1 w.2)) i n = beAt (writeAt out w.1 w.2) i n :=
          ih (h.write hroom hpos) (fun w' hw' => hws w' (List.mem_cons_of_mem _ hw'))
            fun w' hw' => hd w' (List.mem_cons_of_mem _ hw')
        _ = beAt out i n := by
          rw [beAt, slice_writeAt_disjoint (h.length.symm ▸ hroom) (hd w List.mem_cons_self), beAt]

/-- A field reads what was written last. -/
theorem Framed.beAt_written {ws : List (ℕ × List UInt8)} (h : Framed ty len out)
    (hws : Inside len ws) (pre : List (ℕ × List UInt8)) {post : List (ℕ × List UInt8)}
    (hsplit : ws = pre ++ (i, toBeBytes n x) :: post)
    (hpost : ∀ w ∈ post, i + n ≤ w.1 ∨ w.1 + w.2.length ≤ i) (hx : x < 256 ^ n) :
    beAt (RandomStream.writes ws out) i n = x := by
  rw [hsplit] at hws ⊢
  have hpre : Framed ty len (RandomStream.writes pre out) :=
    h.writes fun w hw => hws w (List.mem_append_left _ hw)
  obtain ⟨hpos, hroom⟩ := hws (i, toBeBytes n x) (by simp)
  have hn : (toBeBytes n x).length = n := toBeBytes_length n x
  have hfield : slice (writeAt (RandomStream.writes pre out) i (toBeBytes n x)) i (i + n) =
      toBeBytes n x ++ slice (RandomStream.writes pre out) (i + (toBeBytes n x).length) (i + n) :=
    slice_writeAt_head (hpre.length.symm ▸ hroom) (by rw [hn])
  calc
    beAt (RandomStream.writes (pre ++ (i, toBeBytes n x) :: post) out) i n
      = beAt (RandomStream.writes post
          (writeAt (RandomStream.writes pre out) i (toBeBytes n x))) i n := by
        rw [RandomStream.writes, List.foldl_append, List.foldl_cons]
        rfl
    _ = beAt (writeAt (RandomStream.writes pre out) i (toBeBytes n x)) i n :=
        (hpre.write hroom hpos).beAt_beside
          (fun w hw => hws w (List.mem_append_right _ (List.mem_cons_of_mem _ hw))) hpost
    _ = x := by
        rw [beAt, hfield, hn, slice, Nat.sub_self, List.take_zero, List.append_nil,
          fromBeBytes_toBeBytes hx]

/-- A message of its type's length is valid. -/
theorem Framed.validate (h : Framed ty len out) (hlen : len = Itch5.LENGTH ty) (hpos : len ≠ 0) :
    Itch5.validate out = .ok () := by
  have hout : out.length = Itch5.LENGTH (out.getD 0 0) := by
    rw [h.length, h.head, hlen]
  have hne : out.length ≠ 0 := by rwa [h.length]
  cases out with
  | nil => exact absurd rfl hne
  | cons t rest =>
      rw [List.getD_cons_zero] at hout
      rw [Itch5.validate, if_neg (fun hzero => hne (hout.trans hzero)), if_neg (not_not.mpr hout)]

end Bytes

section Decoded

variable {out : List UInt8}

theorem decode_add (h : Framed 'A'.toUInt8 36 out) :
    decode out = .ok (.add (beAt out 11 8) (beAt out 19 1) (beAt out 20 4) (beAt out 32 4)) := by
  rw [decode, h.head, if_pos (Or.inl rfl), reaching, h.length, if_pos (by decide)]

theorem decode_executed (h : Framed 'E'.toUInt8 31 out) :
    decode out = .ok (.executed (beAt out 11 8) (beAt out 19 4)) := by
  rw [decode, h.head, if_neg (by decide), if_pos rfl, reaching, h.length, if_pos (by decide)]

theorem decode_executedPx (h : Framed 'C'.toUInt8 36 out) :
    decode out =
      .ok (.executedPx (beAt out 11 8) (beAt out 19 4) (beAt out 31 1) (beAt out 32 4)) := by
  rw [decode, h.head, if_neg (by decide), if_neg (by decide), if_pos rfl, reaching, h.length,
    if_pos (by decide)]

theorem decode_cancel (h : Framed 'X'.toUInt8 23 out) :
    decode out = .ok (.cancel (beAt out 11 8) (beAt out 19 4)) := by
  rw [decode, h.head, if_neg (by decide), if_neg (by decide), if_neg (by decide), if_pos rfl,
    reaching, h.length, if_pos (by decide)]

theorem decode_delete (h : Framed 'D'.toUInt8 19 out) :
    decode out = .ok (.delete (beAt out 11 8)) := by
  rw [decode, h.head, if_neg (by decide), if_neg (by decide), if_neg (by decide),
    if_neg (by decide), if_pos rfl, reaching, h.length, if_pos (by decide)]

theorem decode_replace (h : Framed 'U'.toUInt8 35 out) :
    decode out =
      .ok (.replace (beAt out 11 8) (beAt out 19 8) (beAt out 27 4) (beAt out 31 4)) := by
  rw [decode, h.head, if_neg (by decide), if_neg (by decide), if_neg (by decide),
    if_neg (by decide), if_neg (by decide), if_pos rfl, reaching, h.length, if_pos (by decide)]

end Decoded

/-! ## The arms -/

/-- The quantity that a message executes or cancels. -/
def quantity : Msg → Option ℕ
  | .executed _ q | .executedPx _ q _ _ | .cancel _ q => some q
  | _ => none

/-- The message's reference has something left, and the message takes no more than that. -/
def Lawful (f : RegisterFile) (m : Msg) : Prop :=
  ∀ oref, m.ref = some oref → 1 ≤ oref ∧ ∃ r, f oref = some r ∧ 1 ≤ r.rem ∧
    ∀ q, quantity m = some q → 1 ≤ q ∧ q ≤ r.rem

/-- One message has been synthesized: it is well formed and lawful, and the pool agrees with the
registers behind it. -/
def Emitted (f : RegisterFile) (births len : ℕ) (out : List UInt8) (g : TapeGen) : Prop :=
  out.length = len ∧ Itch5.validate out = .ok () ∧ ∃ m, decode out = .ok m ∧ Lawful f m ∧
    ∃ births' ≤ births + 1, Agrees g (f.step m) births'

section Arms

variable {g : TapeGen} {f : RegisterFile} {births locate : ℕ} {out : List UInt8}

theorem lawful_birth (oref side shares price : ℕ) : Lawful f (.add oref side shares price) :=
  fun _ h => by cases h

theorem lawful_part {m : Msg} {oref q : ℕ} {r : Register} (href : m.ref = some oref)
    (hq : quantity m = some q) (hr : f oref = some r) (hone : 1 ≤ oref) (hpos : 1 ≤ q)
    (hle : q ≤ r.rem) : Lawful f m := by
  intro oref' heq
  obtain rfl : oref = oref' := Option.some.inj (href.symm.trans heq)
  refine ⟨hone, r, hr, hpos.trans hle, fun q' hq' => ?_⟩
  obtain rfl : q = q' := Option.some.inj (hq.symm.trans hq')
  exact ⟨hpos, hle⟩

theorem lawful_whole {m : Msg} {oref : ℕ} {r : Register} (href : m.ref = some oref)
    (hq : quantity m = none) (hr : f oref = some r) (hone : 1 ≤ oref) (hpos : 1 ≤ r.rem) :
    Lawful f m := by
  intro oref' heq
  obtain rfl : oref = oref' := Option.some.inj (href.symm.trans heq)
  exact ⟨hone, r, hr, hpos, fun q' hq' => by rw [hq] at hq'; cases hq'⟩

theorem freshRef_yields (g : TapeGen) : Yields freshRef g fun r g' =>
    r = g.nextRef ∧ g' = { g with nextRef := (g.nextRef + 1) % 2 ^ 64 } :=
  ⟨_, _, rfl, rfl, rfl⟩

theorem freshMatch_yields (g : TapeGen) : Yields freshMatch g fun _ g' => Beside g g' :=
  ⟨_, _, rfl, rfl, rfl, rfl, rfl, rfl⟩

/-- Of a live order, a part: E, C and X, whatever else the type writes. -/
theorem step_part {m : Msg} {oref q : ℕ} {r : Register} (hr : f oref = some r)
    (hm : ∀ hit, m.next f hit = Function.update f oref (hit.map (Register.reduce q)))
    (href : m.ref = some oref) : f.step m = Function.update f oref (some (r.reduce q)) := by
  rw [RegisterFile.step, hm, Msg.hit, href, Option.bind_some, hr, Option.map_some]

theorem addArm_yields (h : Agrees g f births) (hb : births + 1 < 2 ^ 64)
    (hlocate : locate < g.prices.length) (side : UInt8) (hout : Framed 'A'.toUInt8 36 out) :
    Yields (addArm locate side out) g (Emitted f births 36) := by
  apply (freshRef_yields g).bind
  rintro _ _ ⟨rfl, rfl⟩
  apply (below_yields _ (by decide)).bind
  rintro d g₁ ⟨hd, h₁⟩
  apply Yields.get_bind
  have hsymbols : locate < g₁.symbols.length := by
    rw [h₁.symbols]
    exact h.symbols.symm ▸ hlocate
  have hsymbol : g₁.symbols[locate].length = 8 := by
    apply h.symbol
    rw [← show g₁.symbols = g.symbols from h₁.symbols]
    exact List.getElem_mem hsymbols
  rw [List.getElem?_eq_getElem hsymbols]
  dsimp only
  generalize g₁.symbols[locate] = sym at hsymbol
  have href : g.nextRef = births + 1 := by
    rw [h.nextRef, Nat.mod_eq_of_lt] <;> omega
  have hprices : locate < g₁.prices.length := by
    rw [h₁.prices]
    exact hlocate
  apply (walkPrice_yields hprices).bind
  intro px g₂ h₂
  apply Yields.modify_bind
  apply Yields.pure
  obtain ⟨ws, hws⟩ : ∃ ws, ws = [(11, toBeBytes 8 g.nextRef), (19, [side]),
    (20, toBeBytes 4 (1 + d)), (24, sym), (32, toBeBytes 4 px)] := ⟨_, rfl⟩
  have hinside : Inside 36 ws := by
    simp [hws, Inside, hsymbol]
  have hframe := hout.writes hinside
  have horef : beAt (writes ws out) 11 8 = g.nextRef :=
    hout.beAt_written hinside [] hws (by simp [hsymbol]) (by omega)
  have hshares : beAt (writes ws out) 20 4 = 1 + d :=
    hout.beAt_written hinside [_, _] hws (by simp [hsymbol]) (by omega)
  have hout' : writeAt (writeAt (writeAt (writeAt (writeAt out 11 (toBeBytes 8 g.nextRef)) 19
      [side]) 20 (toBeBytes 4 (1 + d))) 24 sym) 32 (toBeBytes 4 px) = writes ws out := by
    rw [hws]
    rfl
  rw [hout']
  refine ⟨hframe.length, hframe.validate rfl (by decide), _, decode_add hframe,
    lawful_birth _ _ _ _, births + 1, Nat.le_refl _, ?_⟩
  rw [horef, hshares]
  exact h.birth hb (by omega) rfl (h₁.trans h₂)

/-- E, C and X, whatever else the type writes. -/
theorem emitted_part {m : Msg} {ty : UInt8} {len oref q : ℕ} {r : Register}
    (hout : Framed ty len out) (hlen : len = Itch5.LENGTH ty) (hpos : len ≠ 0)
    (hm : decode out = .ok m)
    (href : m.ref = some oref) (hquantity : quantity m = some q)
    (hnext : ∀ hit, m.next f hit = Function.update f oref (hit.map (Register.reduce q)))
    (hr : f oref = some r) (hone : 1 ≤ oref) (hq : 1 ≤ q) (hle : q ≤ r.rem)
    (h : Agrees g (Function.update f oref (some (r.reduce q))) births) :
    Emitted f births len out g := by
  refine ⟨hout.length, hout.validate hlen hpos, m, hm,
    lawful_part href hquantity hr hone hq hle, births, Nat.le_succ births, ?_⟩
  rw [step_part hr hnext href]
  exact h

theorem executedArm_yields (h : Agrees g f births) (hpool : 0 < g.poolN) (hb : births < 2 ^ 64)
    (hout : Framed 'E'.toUInt8 31 out) :
    Yields (executedArm out) g (Emitted f births 31) := by
  apply (reference_taken h hpool (Or.inl hout.head)).bind
  rintro _ g₁ ⟨oref, q, r, hr, hone, hborn, hq, hle, hlt, rfl, h₁, -⟩
  apply (freshMatch_yields g₁).bind
  intro m g₂ h₂
  apply Yields.pure
  obtain ⟨ws, hws⟩ : ∃ ws, ws = [(19, toBeBytes 4 q), (11, toBeBytes 8 oref),
    (23, toBeBytes 8 m)] := ⟨_, rfl⟩
  have hinside : Inside 31 ws := by
    simp [hws, Inside]
  have horef : beAt (writes ws out) 11 8 = oref :=
    hout.beAt_written hinside [_] hws (by simp) (by omega)
  have hshares : beAt (writes ws out) 19 4 = q :=
    hout.beAt_written hinside [] hws (by simp) (by omega)
  have hdecode := decode_executed (hout.writes hinside)
  rw [horef, hshares] at hdecode
  have hout' : writeAt (writeAt (writeAt out 19 (toBeBytes 4 q)) 11 (toBeBytes 8 oref)) 23
      (toBeBytes 8 m) = writes ws out := by
    rw [hws]
    rfl
  rw [hout']
  exact emitted_part (hout.writes hinside) rfl (by decide) hdecode rfl rfl (fun _ => rfl) hr hone
    hq hle (h₁.beside h₂)

theorem executedPxArm_yields (h : Agrees g f births) (hpool : 0 < g.poolN) (hb : births < 2 ^ 64)
    (hlocate : locate < g.prices.length) (hout : Framed 'C'.toUInt8 36 out) :
    Yields (executedPxArm locate out) g (Emitted f births 36) := by
  apply (reference_taken h hpool (Or.inr (Or.inl hout.head))).bind
  rintro _ g₁ ⟨oref, q, r, hr, hone, hborn, hq, hle, hlt, rfl, h₁, hprices⟩
  apply (freshMatch_yields g₁).bind
  intro m g₂ h₂
  have hlocate' : locate < g₂.prices.length := by
    rw [h₂.prices, hprices]
    exact hlocate
  apply (walkPrice_yields hlocate').bind
  intro px g₃ h₃
  apply Yields.pure
  obtain ⟨ws, hws⟩ : ∃ ws, ws = [(19, toBeBytes 4 q), (11, toBeBytes 8 oref), (23, toBeBytes 8 m),
    (31, ['Y'.toUInt8]), (32, toBeBytes 4 px)] := ⟨_, rfl⟩
  have hinside : Inside 36 ws := by
    simp [hws, Inside]
  have horef : beAt (writes ws out) 11 8 = oref :=
    hout.beAt_written hinside [_] hws (by simp) (by omega)
  have hshares : beAt (writes ws out) 19 4 = q :=
    hout.beAt_written hinside [] hws (by simp) (by omega)
  have hdecode := decode_executedPx (hout.writes hinside)
  rw [horef, hshares] at hdecode
  have hout' : writeAt (writeAt (writeAt (writeAt (writeAt out 19 (toBeBytes 4 q)) 11
      (toBeBytes 8 oref)) 23 (toBeBytes 8 m)) 31 ['Y'.toUInt8]) 32 (toBeBytes 4 px) =
      writes ws out := by
    rw [hws]
    rfl
  rw [hout']
  exact emitted_part (hout.writes hinside) rfl (by decide) hdecode rfl rfl (fun _ => rfl) hr hone
    hq hle (h₁.beside (h₂.trans h₃))

theorem cancel_yields (h : Agrees g f births) (hpool : 0 < g.poolN) (hb : births < 2 ^ 64)
    (hout : Framed 'X'.toUInt8 23 out) :
    Yields (reference out) g (Emitted f births 23) := by
  apply (reference_taken h hpool (Or.inr (Or.inr hout.head))).mono
  rintro _ g₁ ⟨oref, q, r, hr, hone, hborn, hq, hle, hlt, rfl, h₁, -⟩
  obtain ⟨ws, hws⟩ : ∃ ws, ws = [(19, toBeBytes 4 q), (11, toBeBytes 8 oref)] := ⟨_, rfl⟩
  have hinside : Inside 23 ws := by
    simp [hws, Inside]
  have horef : beAt (writes ws out) 11 8 = oref :=
    hout.beAt_written hinside [_] hws (by simp) (by omega)
  have hshares : beAt (writes ws out) 19 4 = q :=
    hout.beAt_written hinside [] hws (by simp) (by omega)
  have hdecode := decode_cancel (hout.writes hinside)
  rw [horef, hshares] at hdecode
  have hout' : writeAt (writeAt out 19 (toBeBytes 4 q)) 11 (toBeBytes 8 oref) = writes ws out := by
    rw [hws]
    rfl
  rw [hout']
  exact emitted_part (hout.writes hinside) rfl (by decide) hdecode rfl rfl (fun _ => rfl) hr hone
    hq hle h₁

theorem delete_yields (h : Agrees g f births) (hpool : 0 < g.poolN) (hb : births < 2 ^ 64)
    (hout : Framed 'D'.toUInt8 19 out) :
    Yields (reference out) g (Emitted f births 19) := by
  have hty : ¬(out.getD 0 0 = 'E'.toUInt8 ∨ out.getD 0 0 = 'C'.toUInt8 ∨
      out.getD 0 0 = 'X'.toUInt8) := by
    rw [hout.head]
    decide
  apply (reference_dropped h hpool hty).mono
  rintro _ g₁ ⟨oref, r, hr, hone, hborn, hrem, rfl, h₁, -⟩
  have hinside : Inside 19 [(11, toBeBytes 8 oref)] := by
    simp [Inside]
  have hframe : Framed 'D'.toUInt8 19 (writeAt out 11 (toBeBytes 8 oref)) := hout.writes hinside
  have horef : beAt (writeAt out 11 (toBeBytes 8 oref)) 11 8 = oref :=
    hout.beAt_written hinside [] rfl (by simp) (by omega)
  have hdecode := decode_delete hframe
  rw [horef] at hdecode
  exact ⟨hframe.length, hframe.validate rfl (by decide), _, hdecode,
    lawful_whole rfl rfl hr hone hrem, births, Nat.le_succ births, h₁⟩

theorem replaceArm_yields (h : Agrees g f births) (hpool : 0 < g.poolN)
    (hb : births + 1 < 2 ^ 64) (hlocate : locate < g.prices.length)
    (hout : Framed 'U'.toUInt8 35 out) :
    Yields (replaceArm locate out) g (Emitted f births 35) := by
  have hty : ¬(out.getD 0 0 = 'E'.toUInt8 ∨ out.getD 0 0 = 'C'.toUInt8 ∨
      out.getD 0 0 = 'X'.toUInt8) := by
    rw [hout.head]
    decide
  apply (reference_dropped h hpool hty).bind
  rintro _ g₁ ⟨oref, r, hr, hone, hborn, hrem, rfl, h₁, hprices⟩
  apply (freshRef_yields g₁).bind
  rintro _ _ ⟨rfl, rfl⟩
  apply (below_yields _ (by decide)).bind
  rintro d g₂ ⟨hd, h₂⟩
  have hlocate' : locate < g₂.prices.length := by
    rw [h₂.prices]
    exact hprices.symm ▸ hlocate
  apply (walkPrice_yields hlocate').bind
  intro px g₃ h₃
  apply Yields.modify_bind
  apply Yields.pure
  have href : g₁.nextRef = births + 1 := by
    rw [h₁.nextRef, Nat.mod_eq_of_lt] <;> omega
  obtain ⟨ws, hws⟩ : ∃ ws, ws = [(11, toBeBytes 8 oref), (19, toBeBytes 8 g₁.nextRef),
    (27, toBeBytes 4 (1 + d)), (31, toBeBytes 4 px)] := ⟨_, rfl⟩
  have hinside : Inside 35 ws := by
    simp [hws, Inside]
  have hframe := hout.writes hinside
  have horef : beAt (writes ws out) 11 8 = oref :=
    hout.beAt_written hinside [] hws (by simp) (by omega)
  have hnref : beAt (writes ws out) 19 8 = g₁.nextRef :=
    hout.beAt_written hinside [_] hws (by simp) (by omega)
  have hshares : beAt (writes ws out) 27 4 = 1 + d :=
    hout.beAt_written hinside [_, _] hws (by simp) (by omega)
  have hdecode := decode_replace hframe
  rw [horef, hnref, hshares] at hdecode
  have hout' : writeAt (writeAt (writeAt (writeAt out 11 (toBeBytes 8 oref)) 19
      (toBeBytes 8 g₁.nextRef)) 27 (toBeBytes 4 (1 + d))) 31 (toBeBytes 4 px) = writes ws out := by
    rw [hws]
    rfl
  rw [hout']
  refine ⟨hframe.length, hframe.validate rfl (by decide), _, hdecode,
    lawful_whole rfl rfl hr hone hrem, births + 1, Nat.le_refl _, ?_⟩
  rw [RegisterFile.step_replace hr]
  exact h₁.birth hb (by omega) rfl (h₂.trans h₃)

end Arms

/-! ## A message -/

theorem genBody_yields {g : TapeGen} {f : RegisterFile} {births len : ℕ} {ty : UInt8}
    {out : List UInt8} (h : Agrees g f births) (hb : births + 1 < 2 ^ 64)
    (hlen : bodyLen ty = some len) (hwarm : ty = 'A'.toUInt8 ∨ 0 < g.poolN)
    (hout : out.length = len) : Yields (genBody out ty) g (Emitted f births len) := by
  apply (pickLocate_yields h.toShaped).bind
  rintro locate g₁ ⟨hlocate, h₁⟩
  apply Yields.get_bind
  apply (below_yields g₁ (by decide)).bind
  rintro advance g₂ ⟨-, h₂⟩
  apply Yields.modify_bind
  apply (next_yields _).bind
  intro s g₃ h₃
  have hmove : Beside g₂ { g₂ with tsNs := (g₂.tsNs + (40 + advance)) % 2 ^ 64 } :=
    ⟨rfl, rfl, rfl, rfl, rfl⟩
  have hbeside : Beside g g₃ := ((h₁.trans h₂).trans hmove).trans h₃
  have hagrees := h.beside hbeside
  rw [← hbeside.prices] at hlocate
  rw [← hbeside.poolN] at hwarm
  have harm : ∀ side, Yields (arm ty locate side (header g₁ ty locate out)) g₃
      (Emitted f births len) := by
    intro side
    simp only [bodyLen] at hlen
    have hframe (hroom : 11 ≤ len) : Framed ty len (header g₁ ty locate out) := by
      have hheader : Framed ty out.length (header g₁ ty locate out) :=
        header_framed g₁ ty locate (by omega)
      rwa [hout] at hheader
    split_ifs at hlen with hA hE hC hX hD hU
    · cases hlen
      rw [arm, if_pos hA]
      exact addArm_yields hagrees hb hlocate side (hA ▸ hframe (by decide))
    · cases hlen
      rw [arm, if_neg hA, if_pos hE]
      exact executedArm_yields hagrees (hwarm.resolve_left hA) (by omega)
        (hE ▸ hframe (by decide))
    · cases hlen
      rw [arm, if_neg hA, if_neg hE, if_pos hC]
      exact executedPxArm_yields hagrees (hwarm.resolve_left hA) (by omega) hlocate
        (hC ▸ hframe (by decide))
    · cases hlen
      rw [arm, if_neg hA, if_neg hE, if_neg hC, if_pos hX]
      exact cancel_yields hagrees (hwarm.resolve_left hA) (by omega) (hX ▸ hframe (by decide))
    · cases hlen
      rw [arm, if_neg hA, if_neg hE, if_neg hC, if_neg hX, if_pos hD]
      exact delete_yields hagrees (hwarm.resolve_left hA) (by omega) (hD ▸ hframe (by decide))
    · cases hlen
      rw [arm, if_neg hA, if_neg hE, if_neg hC, if_neg hX, if_neg hD, if_pos hU]
      exact replaceArm_yields hagrees (hwarm.resolve_left hA) hb hlocate
        (hU ▸ hframe (by decide))
  apply (harm _).bind
  rintro out' g₄ ⟨hlength, hvalid, m, hm, hlawful, births', hle, h₄⟩
  apply Yields.modify_bind
  exact .pure ⟨hlength, hvalid, m, hm, hlawful, births', hle, h₄.beside ⟨rfl, rfl, rfl, rfl, rfl⟩⟩

theorem nextType_yields (g : TapeGen) : Yields nextType g fun ty g' => Beside g g' ∧
    (∃ len, bodyLen ty = some len) ∧ (ty = 'A'.toUInt8 ∨ 0 < g.poolN) := by
  apply Yields.get_bind
  split
  · exact .pure ⟨Beside.refl g, ⟨_, rfl⟩, Or.inl rfl⟩
  · next hpool =>
    apply (below_yields g (by decide)).bind
    rintro d g' ⟨-, hg'⟩
    apply Yields.pure
    refine ⟨hg', ?_, Or.inr (Nat.pos_of_ne_zero hpool)⟩
    split_ifs
    · exact ⟨_, rfl⟩
    · exact ⟨_, rfl⟩
    · exact ⟨_, rfl⟩
    · exact ⟨_, rfl⟩
    · exact ⟨_, rfl⟩
    · exact ⟨_, rfl⟩

/-! ## Orders by their history -/

/-- The order that a message gives birth to. -/
def birth : Msg → Option (ℕ × ℕ)
  | .add oref _ shares _ => some (oref, shares)
  | .replace _ nref nq _ => some (nref, nq)
  | _ => none

/-- D and U end the order they refer to. -/
def Ends (oref : ℕ) : Msg → Prop
  | .delete oref' | .replace oref' _ _ _ => oref' = oref
  | _ => False

/-- What a message executes or cancels of an order. -/
def takes (oref : ℕ) : Msg → ℕ
  | .executed oref' q | .executedPx oref' q _ _ | .cancel oref' q => if oref' = oref then q else 0
  | _ => 0

/-- An A or a U gave birth to the order, no D and no U has ended it since, and `rem` is what the
executions and cancels since have left of it. -/
def Live (ms : List Msg) (oref rem : ℕ) : Prop :=
  ∃ pre b since n, ms = pre ++ b :: since ∧ birth b = some (oref, n) ∧
    (∀ m ∈ since, ¬Ends oref m) ∧ rem = n - (since.map (takes oref)).sum

section History

variable {ms : List Msg} {m : Msg} {oref rem : ℕ}

theorem Live.born {n : ℕ} (h : birth m = some (oref, n)) : Live (ms ++ [m]) oref n :=
  ⟨ms, m, [], n, rfl, h, fun _ hm => absurd hm List.not_mem_nil, rfl⟩

theorem Live.snoc (h : Live ms oref rem) (hm : ¬Ends oref m) :
    Live (ms ++ [m]) oref (rem - takes oref m) := by
  obtain ⟨pre, b, since, n, rfl, hb, hsince, rfl⟩ := h
  refine ⟨pre, b, since ++ [m], n, by rw [List.append_assoc]; rfl, hb, ?_, ?_⟩
  · intro m' hm'
    rcases List.mem_append.mp hm' with hold | hnew
    · exact hsince m' hold
    · rwa [List.mem_singleton.mp hnew]
  · rw [List.map_append, List.sum_append, List.map_singleton, List.sum_singleton, Nat.sub_sub]

/-- A message that neither ends nor takes from the order leaves it as it is. -/
theorem Live.other (h : Live ms oref rem) (hm : ¬Ends oref m) (htakes : takes oref m = 0) :
    Live (ms ++ [m]) oref rem := by
  have hnext := h.snoc hm
  rwa [htakes, Nat.sub_zero] at hnext

/-- E, C and X. -/
theorem live_part {oref' q : ℕ} {r : Register} {f : RegisterFile}
    (ih : ∀ r, f oref = some r → Live ms oref r.rem) (hends : ¬Ends oref m)
    (htakes : takes oref m = if oref' = oref then q else 0)
    (hr : Function.update f oref' ((f oref').map (Register.reduce q)) oref = some r) :
    Live (ms ++ [m]) oref r.rem := by
  by_cases heq : oref' = oref
  · subst heq
    rw [Function.update_self] at hr
    obtain ⟨r', hr', rfl⟩ := Option.map_eq_some_iff.mp hr
    have hnext := (ih r' hr').snoc hends
    rwa [htakes, if_pos rfl] at hnext
  · rw [Function.update_of_ne (Ne.symm heq)] at hr
    exact (ih r hr).other hends (by rw [htakes, if_neg heq])

/-- A register that is live has its history. -/
theorem live_of_register {r : Register} (h : RegisterFile.after ms oref = some r) :
    Live ms oref r.rem := by
  induction ms using List.reverseRecOn generalizing r with
  | nil => cases h
  | append_singleton ms m ih =>
      rw [RegisterFile.after_append_singleton, RegisterFile.step] at h
      have hkeep : RegisterFile.after ms oref = some r → ¬Ends oref m → takes oref m = 0 →
          Live (ms ++ [m]) oref r.rem := fun hr hends htakes => (ih hr).other hends htakes
      cases m with
      | add oref' side shares price =>
          by_cases heq : oref = oref'
          · subst heq
            rw [Msg.next, Function.update_self] at h
            cases h
            exact .born rfl
          · rw [Msg.next, Function.update_of_ne heq] at h
            exact hkeep h not_false rfl
      | executed oref' q => exact live_part (fun _ => ih) not_false rfl h
      | executedPx oref' q _ _ => exact live_part (fun _ => ih) not_false rfl h
      | cancel oref' q => exact live_part (fun _ => ih) not_false rfl h
      | delete oref' =>
          by_cases heq : oref = oref'
          · rw [Msg.next, heq, Function.update_self] at h
            cases h
          · rw [Msg.next, Function.update_of_ne heq] at h
            exact hkeep h (Ne.symm heq) rfl
      | replace oref' nref nq npx =>
          cases hhit : Msg.hit (RegisterFile.after ms) (.replace oref' nref nq npx) with
          | none =>
              rw [hhit] at h
              have hne : oref' ≠ oref := by
                rintro rfl
                cases hhit.symm.trans h
              exact hkeep h hne rfl
          | some r' =>
              rw [hhit, Msg.next] at h
              by_cases hn : oref = nref
              · subst hn
                rw [Function.update_self] at h
                cases h
                exact .born rfl
              · rw [Function.update_of_ne hn] at h
                by_cases heq : oref = oref'
                · rw [heq, Function.update_self] at h
                  cases h
                · rw [Function.update_of_ne heq] at h
                  exact hkeep h (Ne.symm heq) rfl
      | print price => exact hkeep h not_false rfl
      | other => exact hkeep h not_false rfl

end History

/-! ## Runs of lawful messages -/

/-- Each unit is a message that is lawful for the registers behind the units before it. -/
def LawfulRun (us : List (ℕ × List UInt8)) : Prop :=
  ∀ pre u post, us = pre ++ u :: post → ∃ m, decode u.2 = .ok m ∧ Lawful (registers pre) m

section Runs

variable {us : List (ℕ × List UInt8)} {u : ℕ × List UInt8}

theorem LawfulRun.snoc {m : Msg} (h : LawfulRun us) (hm : decode u.2 = .ok m)
    (hlawful : Lawful (registers us) m) : LawfulRun (us ++ [u]) := by
  intro pre u' post heq
  rcases List.eq_nil_or_concat post with rfl | ⟨post', v, rfl⟩
  · obtain ⟨rfl, hu⟩ := List.append_inj' heq rfl
    cases hu
    exact ⟨m, hm, hlawful⟩
  · rw [List.concat_eq_append, ← List.cons_append, ← List.append_assoc] at heq
    obtain ⟨rfl, -⟩ := List.append_inj' heq rfl
    exact h pre u' post' rfl

theorem LawfulRun.prefix {pre post : List (ℕ × List UInt8)} (h : LawfulRun (pre ++ post)) :
    LawfulRun pre := fun pre' u' post' heq =>
  h pre' u' (post' ++ post) (by rw [heq, List.append_assoc, List.cons_append])

/-- A lawful message is neither an anomaly nor clamped. -/
theorem effect_lawful {f : RegisterFile} {m : Msg} (pos : ℕ) (h : Lawful f m) :
    (m.effect pos (m.hit f)).anomalies = 0 ∧ (m.effect pos (m.hit f)).clamps = 0 := by
  have hpart : ∀ {r : Register} {q : ℕ} (sv pv keeps : ℕ), q ≤ r.rem →
      (Effect.reduction r q sv pv keeps).anomalies = 0 ∧
        (Effect.reduction r q sv pv keeps).clamps = 0 :=
    fun _ _ _ hle => ⟨rfl, if_neg (Nat.not_lt.mpr hle)⟩
  cases m with
  | add oref side shares price => exact ⟨rfl, rfl⟩
  | executed oref q =>
      obtain ⟨-, r, hr, -, hq⟩ := h oref rfl
      rw [show Msg.hit f (.executed oref q) = some r from hr]
      exact hpart _ _ _ (hq q rfl).2
  | executedPx oref q printable execPx =>
      obtain ⟨-, r, hr, -, hq⟩ := h oref rfl
      rw [show Msg.hit f (.executedPx oref q printable execPx) = some r from hr]
      exact hpart _ _ _ (hq q rfl).2
  | cancel oref q =>
      obtain ⟨-, r, hr, -, hq⟩ := h oref rfl
      rw [show Msg.hit f (.cancel oref q) = some r from hr]
      exact hpart _ _ _ (hq q rfl).2
  | delete oref =>
      obtain ⟨-, r, hr, -⟩ := h oref rfl
      rw [show Msg.hit f (.delete oref) = some r from hr]
      exact ⟨rfl, rfl⟩
  | replace oref nref nq npx =>
      obtain ⟨-, r, hr, -⟩ := h oref rfl
      rw [show Msg.hit f (.replace oref nref nq npx) = some r from hr]
      exact ⟨rfl, rfl⟩
  | print price => exact ⟨rfl, rfl⟩
  | other => exact ⟨rfl, rfl⟩

/-- A lawful run never looks up reference 0, and counts nothing. -/
theorem LawfulRun.calm (hvalid : Valid us) (h : LawfulRun us) :
    (∀ m ∈ messages us, m.2.ref ≠ some 0) ∧
      ∀ e ∈ RegisterFile.effects (fun _ => none) (messages us), e.anomalies = 0 ∧ e.clamps = 0 := by
  induction us using List.reverseRecOn with
  | nil => exact ⟨fun _ hm => absurd hm List.not_mem_nil, fun _ he => absurd he List.not_mem_nil⟩
  | append_singleton us u ih =>
      obtain ⟨hrefs, heffects⟩ := ih hvalid.prefix h.prefix
      obtain ⟨m, hm, -, hnext⟩ := step_valid (hvalid u (by simp)) Pull.new
      obtain ⟨m', hm', hlawful⟩ := h us u [] rfl
      obtain rfl : m = m' := Except.ok.inj (hm.symm.trans hm')
      rw [(hnext us).1, RegisterFile.effects_append]
      constructor
      · intro m' hmem hzero
        rcases List.mem_append.mp hmem with hold | hnew
        · exact hrefs m' hold hzero
        · rw [List.mem_singleton.mp hnew] at hzero
          exact absurd (hlawful 0 hzero).1 (by decide)
      · intro e he
        rcases List.mem_append.mp he with hold | hnew
        · exact heffects e hold
        · rw [List.mem_singleton.mp hnew]
          exact effect_lawful u.1 hlawful

/-- The pull resolve of a lawful run reports nothing, and its table mirrors the registers. -/
theorem LawfulRun.walk (hvalid : Valid us) (h : LawfulRun us) :
    (walk us = .error .capacityOverflow ∧ 2 ^ 57 ≤ us.length) ∨
    ∃ s, walk us = .ok s ∧ s.anomalies = 0 ∧ s.clamps = 0 ∧
      Mirrors s.cache (registers us) us.length := by
  obtain ⟨hrefs, hcalm⟩ := h.calm hvalid
  rcases walk_registers hvalid hrefs with hfull | ⟨s, hrun, hmirrors, -, hanomalies, hclamps, -⟩
  · exact Or.inl hfull
  · refine Or.inr ⟨s, hrun, ?_, ?_, hmirrors⟩
    · rw [hanomalies]
      apply List.sum_eq_zero
      intro n hn
      obtain ⟨e, he, rfl⟩ := List.mem_map.mp hn
      exact (hcalm e he).1
    · rw [hclamps]
      apply List.sum_eq_zero
      intro n hn
      obtain ⟨e, he, rfl⟩ := List.mem_map.mp hn
      exact (hcalm e he).2

end Runs

/-! ## The tape -/

/-- The units of a chain of messages. -/
def numbered (msgs : List (List UInt8)) : List (ℕ × List UInt8) := (msgs.zipIdx 1).map Prod.swap

theorem numbered_snoc (msgs : List (List UInt8)) (msg : List UInt8) :
    numbered (msgs ++ [msg]) = numbered msgs ++ [(1 + msgs.length, msg)] := by
  rw [numbered, List.zipIdx_append, List.map_append]
  rfl

theorem numbered_length (msgs : List (List UInt8)) : (numbered msgs).length = msgs.length := by
  rw [numbered, List.length_map, List.length_zipIdx]

/-- What the synthesis keeps: the tape is a chain of valid messages, lawful in their order, and
the pool agrees with the registers behind them. -/
structure Built (k : ℕ) (b : TapeBuild) (msgs : List (List UInt8)) : Prop where
  tape : b.tape = blockBytes msgs
  length : msgs.length = k
  body : b.body.length = 36
  valid : ∀ msg ∈ msgs, Itch5.validate msg = .ok ()
  lawful : LawfulRun (numbered msgs)
  agrees : ∃ births ≤ k, Agrees b.gen (registers (numbered msgs)) births

section Tape

variable {k : ℕ} {b : TapeBuild} {msgs : List (List UInt8)}

theorem Built.units (h : Built k b msgs) : stream [b.tape] = numbered msgs := by
  have hsmall : ∀ msg ∈ msgs, msg.length < 2 ^ 16 := by
    intro msg hmsg
    have := (Itch5.validate_length (h.valid msg hmsg)).2
    omega
  rw [stream, List.flatMap_singleton, h.tape, LedgerDedup.units_blockBytes hsmall, numbered]

theorem Built.units_valid (h : Built k b msgs) : Valid (numbered msgs) := by
  intro u hu
  obtain ⟨p, hp, rfl⟩ := List.mem_map.mp hu
  have hat := (List.mem_zipIdx hp).2.2
  apply h.valid p.1
  rw [hat]
  exact List.getElem_mem _

theorem bodyLen_le {ty : UInt8} {len : ℕ} (h : bodyLen ty = some len) : len ≤ 36 := by
  simp only [bodyLen] at h
  split_ifs at h <;> cases h <;> decide

/-- One message more. -/
theorem Built.emit (h : Built k b msgs) (hk : k + 1 < 2 ^ 64) :
    ∃ b' msg, b.emit = some b' ∧ b'.tape = b.tape ++ (toBeBytes 2 msg.length ++ msg) ∧
      Built (k + 1) b' (msgs ++ [msg]) := by
  obtain ⟨births, hbirths, hagrees⟩ := h.agrees
  obtain ⟨ty, g₁, hty, h₁, ⟨len, hlen⟩, hwarm⟩ := nextType_yields b.gen
  have hle := bodyLen_le hlen
  have htake : (b.body.take len).length = len := by
    rw [List.length_take, h.body]
    omega
  rw [← h₁.poolN] at hwarm
  obtain ⟨msg, g₂, hbody, hlength, hvalid, m, hm, hlawful, births', hle', h₂⟩ :=
    genBody_yields (hagrees.beside h₁) (by omega) hlen hwarm htake
  have hrun : b.emit = some ⟨g₂, writeAt b.body 0 msg, b.tape ++ (toBeBytes 2 len ++ msg)⟩ := by
    rw [TapeBuild.emit, hty, Option.bind_eq_bind, Option.bind_some]
    dsimp only
    rw [hlen, Option.bind_eq_bind, Option.bind_some, hbody, Option.bind_eq_bind, Option.bind_some]
    rfl
  refine ⟨_, msg, hrun, by rw [hlength], ?_⟩
  obtain ⟨m', hm', -, hnext⟩ := step_valid (u := (1 + msgs.length, msg)) hvalid Pull.new
  obtain rfl : m = m' := Except.ok.inj (hm.symm.trans hm')
  exact
    { tape := by
        rw [blockBytes, List.flatMap_append, List.flatMap_singleton, hlength, h.tape, blockBytes]
      length := by rw [List.length_append, h.length, List.length_singleton]
      body := by
        rw [writeAt_length (by rw [hlength, h.body]; omega), h.body]
      valid := by
        intro msg' hmsg'
        rcases List.mem_append.mp hmsg' with hold | hnew
        · exact h.valid msg' hold
        · rwa [List.mem_singleton.mp hnew]
      lawful := by
        rw [numbered_snoc]
        exact h.lawful.snoc hm hlawful
      agrees := by
        refine ⟨births', by omega, ?_⟩
        rw [numbered_snoc, (hnext _).2]
        exact h₂ }

theorem startPrices_length (n : ℕ) (rng : SplitMix64) : (startPrices n rng).1.length = n := by
  induction n generalizing rng with
  | zero => rfl
  | succ n ih => exact congrArg (· + 1) (ih _)

theorem symbol_length (i : ℕ) : (symbol i).length = 8 := by
  have hset : ∀ (ks : List ℕ) (sym : List UInt8), (ks.foldl (fun sym k =>
      sym.set (6 - k) (hexDigits.getD ((i >>> (k * 4)) % 16) 0)) sym).length = sym.length := by
    intro ks
    induction ks with
    | nil => exact fun _ => rfl
    | cons k ks ih => exact fun sym => (ih _).trans List.length_set
  exact hset _ _

theorem Built.new (seed : UInt64) {nLocates : ℕ} (hn : 0 < nLocates) :
    Built 0 (TapeBuild.new seed nLocates) [] where
  tape := rfl
  length := rfl
  body := rfl
  valid := fun _ hmsg => absurd hmsg List.not_mem_nil
  lawful := fun pre u post heq => by
    have := congrArg List.length heq
    simp [numbered] at this
  agrees := by
    refine ⟨0, Nat.le_refl 0, ?_⟩
    have hlength : (startPrices nLocates ⟨seed⟩).1.length = nLocates := startPrices_length _ _
    exact
      { prices := hlength.symm ▸ hn
        symbols := by
          rw [TapeBuild.new, TapeGen.new]
          dsimp only
          rw [List.length_map, List.length_range, hlength]
        symbol := by
          intro s hs
          obtain ⟨i, -, rfl⟩ := List.mem_map.mp hs
          exact symbol_length i
        distinct := SwapPool.distinct_empty
        nextRef := rfl
        born := fun _ he => absurd he SwapPool.not_member_empty
        quantity := fun _ he => absurd he SwapPool.not_member_empty
        live := fun _ he => absurd he SwapPool.not_member_empty }

/-- The synthesis never panics, and each tape continues the shorter ones. -/
theorem after_built (seed : UInt64) {nLocates : ℕ} (hn : 0 < nLocates) {total : ℕ}
    (htotal : total < 2 ^ 64) :
    ∃ b msgs, TapeBuild.after seed nLocates total = some b ∧ Built total b msgs ∧
      ∀ k ≤ total, ∃ b' msgs', TapeBuild.after seed nLocates k = some b' ∧ Built k b' msgs' ∧
        b'.tape <+: b.tape := by
  induction total with
  | zero =>
      refine ⟨_, [], rfl, Built.new seed hn, fun k hk => ?_⟩
      obtain rfl := Nat.le_zero.mp hk
      exact ⟨_, [], rfl, Built.new seed hn, List.prefix_refl _⟩
  | succ n ih =>
      obtain ⟨b, msgs, hrun, hbuilt, hall⟩ := ih (by omega)
      obtain ⟨b', msg, hemit, htape, hnext⟩ := hbuilt.emit htotal
      have hafter : TapeBuild.after seed nLocates (n + 1) = some b' := by
        rw [TapeBuild.after, hrun]
        exact hemit
      refine ⟨b', _, hafter, hnext, fun k hk => ?_⟩
      rcases Nat.le_or_eq_of_le_succ hk with hlt | rfl
      · obtain ⟨b'', msgs'', hrun'', hbuilt'', hprefix⟩ := hall k hlt
        refine ⟨b'', msgs'', hrun'', hbuilt'', hprefix.trans ?_⟩
        rw [htape]
        exact List.prefix_append _ _
      · exact ⟨b', _, hafter, hnext, List.prefix_refl _⟩

end Tape

/-! ## The lifecycle -/

/-- An order that a message refers to is live behind the messages before it, and the message
takes no more than is left. -/
def Obeys (ms : List Msg) (m : Msg) : Prop :=
  ∀ oref, m.ref = some oref → ∃ rem, Live ms oref rem ∧ 1 ≤ rem ∧
    ∀ q, quantity m = some q → 1 ≤ q ∧ q ≤ rem

/-- Every live order of the pool has its remaining quantity in the register file behind the tape,
and in the table of the resolve stage. -/
def PoolAgrees (b : TapeBuild) : Prop :=
  ∀ i < b.gen.poolN,
    (registers (stream [b.tape]) (b.gen.pool i).1).map Register.rem = some (b.gen.pool i).2 ∧
      ∀ s, resolvePull [b.tape] = .ok s → ∃ l side px c,
        s.cache.probe (b.gen.pool i).1 = .ok (some (l, side, (b.gen.pool i).2, px), c)

theorem Built.poolAgrees {k : ℕ} {b : TapeBuild} {msgs : List (List UInt8)}
    (h : Built k b msgs) : PoolAgrees b := by
  intro i hi
  obtain ⟨births, -, hagrees⟩ := h.agrees
  have hmember := @SwapPool.member_at _ b.gen.pool _ _ hi
  have hlive := hagrees.live _ hmember
  rw [h.units]
  refine ⟨hlive, fun s hs => ?_⟩
  rw [resolvePull, h.units] at hs
  obtain ⟨r, hr, hrem⟩ := Option.map_eq_some_iff.mp hlive
  rcases h.lawful.walk h.units_valid with ⟨hfull, -⟩ | ⟨s', hrun, -, -, hmirrors⟩
  · cases hfull.symm.trans hs
  · obtain rfl : s' = s := Except.ok.inj (hrun.symm.trans hs)
    obtain ⟨answer, c, hprobe, -, -, hshown, -⟩ := hmirrors.probe (b.gen.pool i).1
    have hne : (b.gen.pool i).1 ≠ 0 := by
      have := (hagrees.born _ hmember).1
      omega
    have hanswer := (hshown hne).trans hr
    obtain ⟨⟨l, side, rem, px⟩, rfl, heq⟩ := Option.map_eq_some_iff.mp hanswer
    have hsame : rem = (b.gen.pool i).2 := by
      rw [← hrem, ← heq]
    exact ⟨l, side, px, c, hsame ▸ hprobe⟩

/-- A random tape of any length over at least one locate: every message that refers to an order
refers to one that is live, and takes between 1 and what is left of it; the pull resolve reports
neither anomalies nor clamps, unless its table outgrows `2 ^ 60` slots; and after every message
the live pool agrees with the register file and with the resolve stage's table. -/
theorem random_tape_lifecycle (seed totalMsgs : UInt64) (nLocates : UInt16)
    (hn : 0 < nLocates.toNat) :
    ∃ tape, buildRandomTape seed totalMsgs.toNat nLocates.toNat = some tape ∧
      (stream [tape]).length = totalMsgs.toNat ∧
      (∀ pre u post, stream [tape] = pre ++ u :: post →
        ∃ m, decode u.2 = .ok m ∧ Obeys ((messages pre).map Prod.snd) m) ∧
      ((resolvePull [tape] = .error .capacityOverflow ∧ 2 ^ 57 ≤ totalMsgs.toNat) ∨
        ∃ s, resolvePull [tape] = .ok s ∧ s.anomalies = 0 ∧ s.clamps = 0) ∧
      ∀ k ≤ totalMsgs.toNat, ∃ b, TapeBuild.after seed nLocates.toNat k = some b ∧
        b.tape <+: tape ∧ PoolAgrees b := by
  obtain ⟨b, msgs, hrun, hbuilt, hall⟩ := after_built seed hn totalMsgs.toNat_lt
  refine ⟨b.tape, ?_, ?_, ?_, ?_, ?_⟩
  · rw [buildRandomTape, hrun, Option.map_some]
  · rw [hbuilt.units, numbered_length, hbuilt.length]
  · intro pre u post heq
    rw [hbuilt.units] at heq
    obtain ⟨m, hm, hlawful⟩ := hbuilt.lawful pre u post heq
    refine ⟨m, hm, fun oref href => ?_⟩
    obtain ⟨-, r, hr, hpos, hquantity⟩ := hlawful oref href
    exact ⟨r.rem, live_of_register hr, hpos, hquantity⟩
  · rw [resolvePull, hbuilt.units]
    rcases hbuilt.lawful.walk hbuilt.units_valid with ⟨hfull, hbig⟩ | ⟨s, hok, hanom, hclamp, -⟩
    · rw [numbered_length, hbuilt.length] at hbig
      exact Or.inl ⟨hfull, hbig⟩
    · exact Or.inr ⟨s, hok, hanom, hclamp⟩
  · intro k hk
    obtain ⟨b', msgs', hrun', hbuilt', hprefix⟩ := hall k hk
    exact ⟨b', hrun', hprefix, hbuilt'.poolAgrees⟩

/-- A tape of three messages over one locate. -/
theorem random_tape_lifecycle_three :
    ∃ tape, buildRandomTape 7 (3 : UInt64).toNat (1 : UInt16).toNat = some tape ∧
      (stream [tape]).length = (3 : UInt64).toNat := by
  obtain ⟨tape, hbuild, hlength, -⟩ := random_tape_lifecycle 7 3 1 (by decide)
  exact ⟨tape, hbuild, hlength⟩

end HftProj.Testkit.RandomStream
