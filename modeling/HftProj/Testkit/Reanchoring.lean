import HftProj.Testkit.ThreadRows

/-!
# The re-anchor loop

In every round a position sees its thread's identity as it is and a remaining quantity that is
exact or stands where nothing is left; a rewritten position is one where nothing is left
afterwards. So the set of rewritten rows grows, and in the round without violations every
position is exact.
-/

namespace HftProj.Testkit.SigPush

open HftProj.Lib
open OrderScan

/-! ## States and registers -/

/-- The state has the register's side and price. -/
def Ident (o : Lanes (BitVec 64)) (r : Register) : Prop :=
  (o 0 = 0 ↔ r.ask) ∧ (o 1 >>> 32).toNat = r.px

def Exact (o : Lanes (BitVec 64)) (r : Register) : Prop :=
  Ident o r ∧ o 2 = BitVec.ofNat 64 r.rem

/-- The remaining quantity is exact or stands where nothing is left. -/
def Near (o : Lanes (BitVec 64)) (r : Register) : Prop :=
  Ident o r ∧ (o 2 = BitVec.ofNat 64 r.rem ∨ r.rem = 0)

/-- A composite on an entry stands for a register: it shows it, or the position is an
anomaly. -/
def Cell (Rel : Lanes (BitVec 64) → Register → Prop) (pre : RowOp)
    (ent : Option (Lanes (BitVec 64))) : Option Register → Prop
  | some r => ∃ e, ent = some e ∧ pre.dead = false ∧ Rel (pre.apply e) r
  | none => pre.dead = true ∨ (ent = none ∧ ∃ k, pre.m k = true)

theorem Cell.mono {Rel Rel' : Lanes (BitVec 64) → Register → Prop} {pre : RowOp}
    {ent : Option (Lanes (BitVec 64))} {r : Option Register} (h : ∀ o r, Rel o r → Rel' o r)
    (hcell : Cell Rel pre ent r) : Cell Rel' pre ent r := by
  cases r with
  | none => exact hcell
  | some r =>
      obtain ⟨e, hent, hdead, hrel⟩ := hcell
      exact ⟨e, hent, hdead, h _ _ hrel⟩

theorem packed_px {px locate : ℕ} (hpx : px < 2 ^ 32) (hlocate : locate < 2 ^ 32) :
    (packed px locate >>> 32).toNat = px := by
  have hp : px <<< 32 = px * 2 ^ 32 := Nat.shiftLeft_eq px 32
  rw [packed, BitVec.toNat_ushiftRight, BitVec.toNat_or, BitVec.toNat_shiftLeft, BitVec.toNat_ofNat,
    BitVec.toNat_ofNat, Nat.mod_eq_of_lt (show px < 2 ^ 64 by omega),
    Nat.mod_eq_of_lt (show locate < 2 ^ 64 by omega), Nat.mod_eq_of_lt (by rw [hp]; omega),
    Nat.shiftRight_or_distrib, hp, Nat.shiftRight_eq_div_pow, Nat.shiftRight_eq_div_pow,
    Nat.mul_div_cancel _ (by decide), Nat.div_eq_of_lt hlocate, Nat.or_zero]

/-- The fields of a decoded message have the widths of the wire, and a delete no quantity. -/
structure Dec.Sized (g : Dec) : Prop where
  q_lt : g.q < 2 ^ 32
  px_lt : g.px < 2 ^ 32
  newQ_lt : g.newQ < 2 ^ 32
  newPx_lt : g.newPx < 2 ^ 32
  loc_lt : g.loc < 2 ^ 16
  delete_q : g.act = some .d → g.q = 0

namespace Frame

variable {fr : Frame}

/-- A row that takes a quantity. -/
def Reduces (fr : Frame) (s : Slot) : Prop :=
  s.role = .ref ∧ ∃ act, (fr.msg s.gi).act = some act ∧ clampArm act = true

/-- The four kinds of rows. -/
theorem slot_kind {s : Slot} (h : s ∈ fr.slotsTo fr.batch.length) :
    (isStart fr.batch s = true ∧ s.role = .ref ∧ (fr.msg s.gi).act = some .a ∧
      fr.aft s = some ⟨sideAsk (fr.msg s.gi).side, (fr.msg s.gi).px, (fr.msg s.gi).q⟩ ∧
      rowOf fr.batch s = rowopOf .a (fr.msg s.gi).q (fr.msg s.gi).px (fr.msg s.gi).loc
        (if (fr.msg s.gi).side ≠ 'S'.toNat then 1 else 0)) ∨
    (isStart fr.batch s = true ∧ s.role = .uNew ∧ (fr.msg s.gi).act = some .u ∧
      rowOf fr.batch s =
        rowopUNew (fr.msg s.gi).newQ (fr.msg s.gi).newPx (fr.msg s.gi).loc) ∨
    (isStart fr.batch s = false ∧ fr.Reduces s ∧ fr.bef s = fr.file s.gi s.tid ∧
      fr.aft s = (fr.bef s).map (Register.reduce (fr.msg s.gi).q) ∧
      rowOf fr.batch s =
        ⟨true, fun _ => true, ![0, 0, -BitVec.ofNat 64 (fr.msg s.gi).q], false⟩) ∨
    (isStart fr.batch s = false ∧ ¬fr.Reduces s ∧ s.role ≠ .uNew ∧
      fr.bef s = fr.file s.gi s.tid ∧ fr.aft s = none ∧ (rowOf fr.batch s).dead = true) := by
  obtain ⟨-, ⟨hrole, hact, -⟩ | ⟨act, hact, hrole, -⟩⟩ := slot_cases h
  · refine Or.inr (Or.inl ⟨by simp [isStart, hrole], hrole, hact, ?_⟩)
    simp only [rowOf, hrole]
    rfl
  · have hact' : (msgAt fr.batch s.gi).act = some act := hact
    have hreduce : act = .e ∨ act = .c ∨ act = .x → s.role = .ref →
        isStart fr.batch s = false ∧ fr.Reduces s ∧ fr.bef s = fr.file s.gi s.tid ∧
        fr.aft s = (fr.bef s).map (Register.reduce (fr.msg s.gi).q) ∧
        rowOf fr.batch s =
          ⟨true, fun _ => true, ![0, 0, -BitVec.ofNat 64 (fr.msg s.gi).q], false⟩ := by
      rintro hor hs
      refine ⟨?_, ⟨hs, act, hact, by simpa [clampArm] using hor⟩, by simp only [bef, hs], ?_, ?_⟩
      · rcases hor with rfl | rfl | rfl <;> simp [isStart, hs, hact']
      · rcases hor with rfl | rfl | rfl <;> simp only [aft, bef, hs, hact]
      · rcases hor with rfl | rfl | rfl <;> simp [rowOf, hs, hact', rowopOf] <;> rfl
    cases act with
    | a =>
        left
        have hs : s.role = .ref := hrole
        refine ⟨by simp [isStart, hs, hact'], hs, hact, by simp only [aft, hs, hact], ?_⟩
        simp only [rowOf, hs, hact']
        rfl
    | d =>
        have hs : s.role = .ref := hrole
        refine Or.inr (Or.inr (Or.inr ⟨by simp [isStart, hs, hact'], ?_, by simp [hs],
          by simp only [bef, hs], by simp only [aft, hs, hact], ?_⟩))
        · rintro ⟨-, act, hact₂, hclamp⟩
          rw [hact] at hact₂
          cases hact₂
          cases hclamp
        · simp [rowOf, hs, hact', rowopOf]
    | u =>
        have hs : s.role = .uOld := hrole
        refine Or.inr (Or.inr (Or.inr ⟨by simp [isStart, hs], ?_, by simp [hs],
          by simp only [bef, hs], by simp only [aft, hs], ?_⟩))
        · rintro ⟨href, -⟩
          rw [hs] at href
          cases href
        · simp [rowOf, hs, rowopOf]
    | e => exact Or.inr (Or.inr (Or.inl (hreduce (Or.inl rfl) hrole)))
    | c => exact Or.inr (Or.inr (Or.inl (hreduce (Or.inr (Or.inl rfl)) hrole)))
    | x => exact Or.inr (Or.inr (Or.inl (hreduce (Or.inr (Or.inr rfl)) hrole)))

/-! ## The cells of a round -/

/-- The entry of a thread that a replace gave birth to: the side of the old register, or
nothing. -/
def Inherits : Option (Option (Lanes (BitVec 64))) → Option Register → Prop
  | some (some e), some r => e 0 = 0 ↔ r.ask
  | some none, none => True
  | _, _ => False

/-- The rows of a round: as they were built, or rewritten where nothing is left. -/
structure Shaped (fr : Frame) (rows : ℕ → RowOp) (rewritten : ℕ → Bool) : Prop where
  flag : ∀ ri < fr.spec.length, (rows ri).f = (fr.rows ri).f
  kept : ∀ ri < fr.spec.length, rewritten ri = false → rows ri = fr.rows ri
  anchored : ∀ ri < fr.spec.length, rewritten ri = true → fr.Reduces (fr.slot ri) ∧
    ∃ r, fr.bef (fr.slot ri) = some r ∧ r.rem ≤ (fr.msg (fr.slot ri).gi).q ∧
      (rows ri).m = (fun _ => false) ∧ (rows ri).dead = false ∧ Ident (rows ri).b r ∧
      (rows ri).b 2 = 0

/-- The replaces before a time have given their threads an entry. -/
structure Born (fr : Frame) (uEnt : UEnt) (τ : ℕ) : Prop where
  other : ∀ ri < fr.spec.length, (fr.slot ri).role ≠ .uNew → uEnt ri = none
  born : ∀ ri < fr.spec.length, (fr.slot ri).role = .uNew → time (fr.slot ri) < τ →
    Inherits (uEnt ri) (fr.file (fr.slot ri).gi (fr.msg (fr.slot ri).gi).id)

/-- What the batch is entered with: decoded messages and 32-bit quantities. -/
structure Entered (fr : Frame) : Prop where
  sized : ∀ g ∈ fr.batch, g.Sized
  rho_lt : ∀ id r, fr.carry id = some r → r.dead = false → r.rho.toNat < 2 ^ 32

theorem Entered.msg (hent : fr.Entered) (gi : ℕ) : (fr.msg gi).Sized := by
  rw [Frame.msg, msgAt, List.getD_eq_getElem?_getD]
  cases hg : fr.batch[gi]? with
  | none => exact ⟨by decide, by decide, by decide, by decide, by decide, fun h => by cases h⟩
  | some g => exact hent.sized g (List.mem_of_getElem? hg)

theorem preOf_eq (rows : ℕ → RowOp) {ri : ℕ} (h : ri < fr.spec.length) :
    preOf (fr.scanned rows) rows ri = prefixAt rows ri := by
  cases ri with
  | zero => rfl
  | succ ri =>
      rw [preOf, prefixAt, PrefixScan.before]
      by_cases hf : (rows (ri + 1)).f
      · rw [if_pos (Or.inr hf), if_pos hf]
      · rw [if_neg (by simp [hf]), if_neg hf, Nat.add_sub_cancel, scanned,
          orderScan_eq _ _ ri (by omega)]
        rfl

/-- The first row of a continuing thread is entered with the carry register. -/
theorem entOf_carry {uEnt : UEnt} {ri : ℕ} (hother : uEnt ri = none)
    (hstart : isStart fr.batch (fr.slot ri) = false) :
    Cell Exact ROWOP_IDENTITY (fr.entOf uEnt ri) (fr.entry (fr.slot ri).tid) := by
  have hborn : ¬((fr.slot ri).role = .ref ∧ (fr.msg (fr.slot ri).gi).act = some .a) := by
    rintro ⟨hrole, hact⟩
    have hact' : (msgAt fr.batch (fr.slot ri).gi).act = some .a := hact
    simp [isStart, hrole, hact'] at hstart
  cases hcarry : fr.carry (fr.slot ri).tid with
  | none =>
      simp only [entOf, hother, entry, hcarry, Option.filter_none, if_neg hborn]
      exact Or.inr ⟨rfl, 0, rfl⟩
  | some r =>
      cases hdead : r.dead with
      | true =>
          simp only [entOf, hother, entry, hcarry, Option.filter_some, hdead, Option.bind_some,
            Reg.register, if_neg hborn]
          exact Or.inr ⟨rfl, 0, rfl⟩
      | false =>
          simp only [entOf, hother, entry, hcarry, Option.filter_some, hdead, Option.bind_some,
            Reg.register]
          refine ⟨_, rfl, rfl, ⟨?_, ?_⟩, ?_⟩
          · simp [apply_identity]
          · simp [apply_identity]
          · simp [apply_identity]

section Cells

variable {rows : ℕ → RowOp} {rewritten : ℕ → Bool} {uEnt : UEnt} {τ ri : ℕ}

theorem starts_here (hf : (rows ri).f = true) :
    prefixAt rows ri = ROWOP_IDENTITY ∧ threadStart rows ri = ri := by
  cases ri with
  | zero => exact ⟨rfl, rfl⟩
  | succ ri => exact ⟨if_pos hf, if_pos hf⟩

theorem goes_on (hf : (rows (ri + 1)).f = false) :
    prefixAt rows (ri + 1) = rowopCompose (prefixAt rows ri) (rows ri) ∧
      threadStart rows (ri + 1) = threadStart rows ri := by
  have hf' : ¬(rows (ri + 1)).f = true := by simp [hf]
  exact ⟨if_neg hf', if_neg hf'⟩

/-- Behind a birth the thread shows the new register. -/
theorem cell_birth (hent : fr.Entered) (hborn : Born fr uEnt τ) (hri : ri < fr.spec.length)
    (hτ : time (fr.slot ri) < τ) (hstart : isStart fr.batch (fr.slot ri) = true) :
    Cell Exact (rowOf fr.batch (fr.slot ri)) (fr.entOf uEnt ri) (fr.aft (fr.slot ri)) := by
  have hsized := hent.msg (fr.slot ri).gi
  have hloc : (fr.msg (fr.slot ri).gi).loc < 2 ^ 32 := hsized.loc_lt.trans (by decide)
  rcases slot_kind (slot_mem hri) with ⟨-, hrole, hact, haft, hrow⟩ | ⟨-, hrole, hact, hrow⟩ |
    ⟨hno, -⟩ | ⟨hno, -⟩
  · have hother := hborn.other ri hri (by rw [hrole]; decide)
    have hact' : (fr.msg (fr.slot ri).gi).act = some Act.a := hact
    obtain ⟨e, he⟩ : ∃ e, fr.entOf uEnt ri = some e := by
      simp only [entOf, hother]
      split
      · exact ⟨_, rfl⟩
      · rw [if_pos ⟨hrole, hact'⟩]
        exact ⟨_, rfl⟩
    rw [haft, hrow]
    refine ⟨e, he, rfl, ⟨?_, ?_⟩, ?_⟩
    · simp [RowOp.apply, rowopOf, sideAsk]
    · simp [RowOp.apply, rowopOf, packed_px hsized.px_lt hloc]
    · simp [RowOp.apply, rowopOf]
  · have hinherits := hborn.born ri hri hrole hτ
    have haft : fr.aft (fr.slot ri) =
        (fr.file (fr.slot ri).gi (fr.msg (fr.slot ri).gi).id).map fun r =>
          ⟨r.ask, (fr.msg (fr.slot ri).gi).newPx, (fr.msg (fr.slot ri).gi).newQ⟩ := by
      simp only [aft, hrole]
    rw [haft, hrow]
    cases hold : fr.file (fr.slot ri).gi (fr.msg (fr.slot ri).gi).id with
    | none =>
        rw [hold] at hinherits
        cases hu : uEnt ri with
        | none => simp [hu, Inherits] at hinherits
        | some e =>
            cases e with
            | some e => simp [hu, Inherits] at hinherits
            | none =>
                refine Or.inr ⟨?_, 0, rfl⟩
                simp only [entOf, hu]
    | some r =>
        rw [hold] at hinherits
        cases hu : uEnt ri with
        | none => simp [hu, Inherits] at hinherits
        | some e =>
            cases e with
            | none => simp [hu, Inherits] at hinherits
            | some e =>
                rw [hu] at hinherits
                have hask : e 0 = 0 ↔ r.ask := hinherits
                refine ⟨e, by simp only [entOf, hu], rfl, ⟨?_, ?_⟩, ?_⟩
                · simpa [RowOp.apply, rowopUNew] using hask
                · simp [RowOp.apply, rowopUNew, packed_px hsized.newPx_lt hloc]
                · simp [RowOp.apply, rowopUNew]
  · rw [hstart] at hno
    cases hno
  · rw [hstart] at hno
    cases hno

/-- The step of a relation along a row that takes a quantity. -/
def StepsAt (fr : Frame) (rows : ℕ → RowOp) (uEnt : UEnt)
    (Rel : Lanes (BitVec 64) → Register → Prop) (ri : ℕ) : Prop :=
  ∀ e r, fr.entOf uEnt (threadStart rows ri) = some e → fr.bef (fr.slot ri) = some r →
    (prefixAt rows ri).dead = false → Rel ((prefixAt rows ri).apply e) r →
    Rel ((fr.rows ri).apply ((prefixAt rows ri).apply e))
      (r.reduce (fr.msg (fr.slot ri).gi).q)

/-- A row inside a thread takes the cell before it to the cell behind it. -/
theorem cell_row {Rel : Lanes (BitVec 64) → Register → Prop}
    (hexact : ∀ o r, Exact o r → Rel o r) (hshape : Shaped fr rows rewritten)
    (hri : ri < fr.spec.length) (hstart : isStart fr.batch (fr.slot ri) = false)
    (hstep : fr.Reduces (fr.slot ri) → rewritten ri = false → StepsAt fr rows uEnt Rel ri)
    (hcell : Cell Rel (prefixAt rows ri) (fr.entOf uEnt (threadStart rows ri))
      (fr.bef (fr.slot ri))) :
    Cell Rel (rowopCompose (prefixAt rows ri) (rows ri))
      (fr.entOf uEnt (threadStart rows ri)) (fr.aft (fr.slot ri)) := by
  have hrows : ∃ f, fr.rows ri = { rowOf fr.batch (fr.slot ri) with f := f } := by
    rcases row_cases hri with ⟨hrow, -⟩ | ⟨hrow, -⟩
    · exact ⟨_, hrow⟩
    · exact ⟨_, hrow⟩
  obtain ⟨f, hrow⟩ := hrows
  rcases slot_kind (slot_mem hri) with ⟨hyes, -⟩ | ⟨hyes, -⟩ |
    ⟨-, hreduces, -, haft, hop⟩ | ⟨-, hreduces, -, -, haft, hdead⟩
  · rw [hstart] at hyes
    cases hyes
  · rw [hstart] at hyes
    cases hyes
  · rw [haft]
    cases hrw : rewritten ri with
    | true =>
        obtain ⟨-, r, hbef, hle, hm, hd, hident, hb⟩ := hshape.anchored ri hri hrw
        rw [hbef] at hcell ⊢
        obtain ⟨e, hent, hdead, -⟩ := hcell
        have happly : (rows ri).apply ((prefixAt rows ri).apply e) = (rows ri).b := by
          funext k
          simp [RowOp.apply, hm]
        refine ⟨e, hent, ?_, hexact _ _ ?_⟩
        · simp [rowopCompose, hdead, hd]
        · rw [apply_compose, happly]
          refine ⟨hident, ?_⟩
          rw [hb, Register.reduce, Nat.sub_eq_zero_of_le hle]
          rfl
    | false =>
        have hkept := hshape.kept ri hri hrw
        cases hbef : fr.bef (fr.slot ri) with
        | none =>
            rw [hbef] at hcell
            refine hcell.imp (fun hdead => ?_) ?_
            · simp [rowopCompose, hdead]
            · rintro ⟨hent, k, hk⟩
              refine ⟨hent, k, ?_⟩
              simp [rowopCompose, hk, hkept, hrow, hop]
        | some r =>
            rw [hbef] at hcell
            obtain ⟨e, hent, hdead, hrel⟩ := hcell
            refine ⟨e, hent, ?_, ?_⟩
            · simp [rowopCompose, hdead, hkept, hrow, hop]
            · rw [apply_compose, hkept]
              exact hstep hreduces hrw e r hent hbef hdead hrel
  · have hrw : rewritten ri = false := by
      cases hrw : rewritten ri with
      | false => rfl
      | true => exact absurd (hshape.anchored ri hri hrw).1 hreduces
    rw [haft]
    left
    simp [rowopCompose, hshape.kept ri hri hrw, hrow, hdead]

/-- Every position of a round stands for the register that the batch's messages leave it. -/
theorem cells (hent : fr.Entered) (hshape : Shaped fr rows rewritten) (hborn : Born fr uEnt τ)
    {Rel : Lanes (BitVec 64) → Register → Prop} (hexact : ∀ o r, Exact o r → Rel o r)
    (hstep : ∀ ri < fr.spec.length, fr.Reduces (fr.slot ri) → rewritten ri = false →
      StepsAt fr rows uEnt Rel ri) :
    ∀ ri < fr.spec.length, time (fr.slot ri) < τ →
      (isStart fr.batch (fr.slot ri) = false → Cell Rel (prefixAt rows ri)
        (fr.entOf uEnt (threadStart rows ri)) (fr.bef (fr.slot ri))) ∧
      Cell Rel (rowopCompose (prefixAt rows ri) (rows ri))
        (fr.entOf uEnt (threadStart rows ri)) (fr.aft (fr.slot ri)) := by
  intro ri
  induction ri using Nat.strong_induction_on with
  | _ ri ih =>
      intro hri hτ
      have hinner : (isStart fr.batch (fr.slot ri) = false → Cell Rel (prefixAt rows ri)
          (fr.entOf uEnt (threadStart rows ri)) (fr.bef (fr.slot ri))) →
          isStart fr.batch (fr.slot ri) = false → Cell Rel (rowopCompose (prefixAt rows ri) (rows ri))
            (fr.entOf uEnt (threadStart rows ri)) (fr.aft (fr.slot ri)) := fun hcell hstart =>
        cell_row hexact hshape hri hstart (hstep ri hri) (hcell hstart)
      rcases row_cases hri with ⟨hrow, hbegins⟩ | ⟨hrow, hnot, rj, rfl, hbef, htime, -⟩
      · have hf : (rows ri).f = true := by rw [hshape.flag ri hri, hrow, rowOf_f]
        obtain ⟨hpre, hts⟩ := starts_here hf
        cases hstart : isStart fr.batch (fr.slot ri) with
        | true =>
            refine ⟨(fun hno => by cases hno), ?_⟩
            have hrw : rewritten ri = false := by
              cases hrw : rewritten ri with
              | false => rfl
              | true =>
                  obtain ⟨⟨hrole, act, hact, hclamp⟩, -⟩ := hshape.anchored ri hri hrw
                  have hact' : (msgAt fr.batch (fr.slot ri).gi).act = some act := hact
                  have hact'' : act = .a := by simpa [isStart, hrole, hact'] using hstart
                  rw [hact''] at hclamp
                  cases hclamp
            rw [hpre, hts, identity_compose, hshape.kept ri hri hrw, hrow]
            exact (cell_birth hent hborn hri hτ hstart).mono hexact
        | false =>
            have hcell : Cell Rel (prefixAt rows ri) (fr.entOf uEnt (threadStart rows ri))
                (fr.bef (fr.slot ri)) := by
              rw [hpre, hts, hbegins.resolve_left (by simp [hstart])]
              refine (entOf_carry (hborn.other ri hri ?_) hstart).mono hexact
              intro hrole
              simp [isStart, hrole] at hstart
            exact ⟨fun _ => hcell, hinner (fun _ => hcell) hstart⟩
      · have hf : (rows (rj + 1)).f = false := by rw [hshape.flag _ hri, hrow]
        obtain ⟨hpre, hts⟩ := goes_on hf
        have hcell : Cell Rel (prefixAt rows (rj + 1)) (fr.entOf uEnt (threadStart rows (rj + 1)))
            (fr.bef (fr.slot (rj + 1))) := by
          rw [hpre, hts, hbef]
          exact (ih rj (by omega) (by omega) (htime.trans hτ)).2
        exact ⟨fun _ => hcell, hinner (fun _ => hcell) (by simpa using hnot)⟩

theorem apply_reduces (hri : ri < fr.spec.length) (h : fr.Reduces (fr.slot ri))
    (o : Lanes (BitVec 64)) :
    (fr.rows ri).apply o = ![o 0, o 1, o 2 - BitVec.ofNat 64 (fr.msg (fr.slot ri).gi).q] := by
  have hop : ∃ f, fr.rows ri =
      ⟨f, fun _ => true, ![0, 0, -BitVec.ofNat 64 (fr.msg (fr.slot ri).gi).q], false⟩ := by
    rcases slot_kind (slot_mem hri) with ⟨-, hrole, hact, -⟩ | ⟨-, hrole, -⟩ |
      ⟨-, -, -, -, hop⟩ | ⟨-, hno, -⟩
    · obtain ⟨-, act, hact', hclamp⟩ := h
      rw [hact] at hact'
      cases hact'
      cases hclamp
    · have hrole' := h.1
      rw [hrole] at hrole'
      cases hrole'
    · rcases row_cases hri with ⟨hrow, -⟩ | ⟨hrow, -⟩
      · exact ⟨_, hrow.trans hop⟩
      · exact ⟨false, by rw [hrow, hop]⟩
    · exact absurd h hno
  obtain ⟨f, hop⟩ := hop
  rw [hop]
  funext k
  fin_cases k <;> simp [RowOp.apply, sub_eq_add_neg]

theorem near_steps (hri : ri < fr.spec.length) (h : fr.Reduces (fr.slot ri)) :
    StepsAt fr rows uEnt Near ri := by
  rintro e r - - - ⟨⟨hask, hpx⟩, hrem⟩
  rw [apply_reduces hri h]
  refine ⟨⟨hask, hpx⟩, ?_⟩
  rw [Register.reduce]
  rcases hrem with hrem | hrem
  · rcases Nat.lt_or_ge r.rem (fr.msg (fr.slot ri).gi).q with hlt | hge
    · exact Or.inr (Nat.sub_eq_zero_of_le hlt.le)
    · left
      show (prefixAt rows ri).apply e 2 - _ = _
      rw [hrem, ← Nat.sub_add_cancel hge, BitVec.ofNat_add, add_sub_cancel_right,
        Nat.add_sub_cancel]
  · right
    show r.rem - _ = 0
    omega

/-- The state of a thread where a register of it is shown. -/
theorem stateAt_eq {e : Lanes (BitVec 64)} (hri : ri < fr.spec.length)
    (he : fr.entOf uEnt (threadStart rows ri) = some e) :
    fr.stateAt rows uEnt ri = (prefixAt rows ri).apply e := by
  rw [stateAt, preOf_eq rows hri, he, Option.getD_some]

/-- One replace more has given its thread an entry. -/
theorem born_uStep (hent : fr.Entered) (hshape : Shaped fr rows rewritten) {gi : ℕ}
    (hgi : gi < fr.batch.length) (hact : (fr.msg gi).act = some .u)
    (hborn : Born fr uEnt (2 * gi)) : Born fr (fr.uStep rows uEnt gi) (2 * (gi + 1)) := by
  obtain ⟨hd, hdslot⟩ := emitRow_spec hgi hact
  obtain ⟨hu, huslot⟩ := uNewRow_spec hgi hact
  have hodd : Born fr uEnt (2 * gi + 1) := by
    refine ⟨hborn.other, fun ri hri hrole hτ => hborn.born ri hri hrole ?_⟩
    rw [time, if_pos hrole] at hτ ⊢
    omega
  have hrole : (fr.slot (fr.emitRow gi)).role = .uOld := by rw [hdslot]; rfl
  have hcells := (cells hent hshape hodd (fun o r h => ⟨h.1, Or.inl h.2⟩)
    (fun ri hri hr _ => near_steps hri hr) (fr.emitRow gi) hd (by rw [time, hdslot]; simp)).1
    (by simp [isStart, hrole])
  have hbef : fr.bef (fr.slot (fr.emitRow gi)) = fr.file gi (fr.msg gi).id := by
    rw [bef, hdslot]
    rfl
  rw [hbef] at hcells
  have hinherits : Inherits (fr.uStep rows uEnt gi (fr.uNewRow gi))
      (fr.file gi (fr.msg gi).id) := by
    simp only [uStep, Function.update_self, preOf_eq rows hd]
    cases hold : fr.file gi (fr.msg gi).id with
    | none =>
        rw [hold] at hcells
        rw [if_neg]
        · trivial
        · rcases hcells with hdead | ⟨hnone, -⟩
          · simp [hdead]
          · simp [hnone]
    | some r =>
        rw [hold] at hcells
        obtain ⟨e, he, hdead, hnear⟩ := hcells
        rw [if_pos (by simp [hdead, he]), stateAt_eq hd he]
        exact hnear.1.1
  have hsame : ∀ ri < fr.spec.length, fr.slot ri ≠ fr.slot (fr.uNewRow gi) →
      fr.uStep rows uEnt gi ri = uEnt ri := fun ri hri hne =>
    Function.update_of_ne (fun heq => hne (by rw [heq])) ..
  constructor
  · intro ri hri hother
    rw [hsame ri hri fun heq => hother (by rw [heq, huslot])]
    exact hborn.other ri hri hother
  · intro ri hri hnew hτ
    obtain ⟨-, ⟨-, -, htid⟩ | ⟨act, -, hno, -⟩⟩ := slot_cases (slot_mem hri)
    · by_cases heq : (fr.slot ri).gi = gi
      · have hslot : fr.slot ri = fr.slot (fr.uNewRow gi) := by
          rw [huslot, ← heq, ← htid, ← hnew]
        rw [slot_inj hri hu hslot, huslot]
        exact hinherits
      · rw [hsame ri hri fun hslot => heq (by rw [hslot, huslot])]
        apply hborn.born ri hri hnew
        rw [time, if_pos hnew] at hτ ⊢
        omega
    · rw [hnew] at hno
      split at hno <;> cases hno

theorem born_uEnt (hent : fr.Entered) (hshape : Shaped fr rows rewritten) :
    Born fr (fr.uEnt rows) (2 * fr.batch.length) := by
  suffices hall : ∀ k ≤ fr.batch.length, Born fr
      (((List.range k).filter fun gi => (fr.msg gi).act = some .u).foldl (fr.uStep rows)
        fun _ => none) (2 * k) from hall _ (Nat.le_refl _)
  intro k
  induction k with
  | zero => exact fun _ => ⟨fun _ _ _ => rfl, fun _ _ _ hτ => absurd hτ (Nat.not_lt_zero _)⟩
  | succ k ih =>
      intro hk
      have hborn := ih (by omega)
      rw [List.range_succ, List.filter_append, List.foldl_append]
      by_cases hact : (fr.msg k).act = some .u
      · rw [List.filter_cons, if_pos (by simpa using hact), List.filter_nil]
        exact born_uStep hent hshape (by omega) hact hborn
      · rw [List.filter_cons, if_neg (by simpa using hact), List.filter_nil]
        refine ⟨hborn.other, fun ri hri hnew hτ => hborn.born ri hri hnew ?_⟩
        obtain ⟨-, ⟨-, hu, -⟩ | ⟨act, -, hno, -⟩⟩ := slot_cases (slot_mem hri)
        · have hne : (fr.slot ri).gi ≠ k := fun heq => hact (heq ▸ hu)
          rw [time, if_pos hnew] at hτ ⊢
          omega
        · rw [hnew] at hno
          split at hno <;> cases hno

theorem time_lt (hri : ri < fr.spec.length) : time (fr.slot ri) < 2 * fr.batch.length := by
  have hgi := (slot_cases (slot_mem hri)).1
  rw [time]
  split <;> omega

/-! ## What a message is emitted from -/

/-- The relation that a round keeps, along the rows that are as they were built. -/
def Keeps (fr : Frame) (rows : ℕ → RowOp) (rewritten : ℕ → Bool)
    (Rel : Lanes (BitVec 64) → Register → Prop) : Prop :=
  (∀ o r, Exact o r → Rel o r) ∧ ∀ ri < fr.spec.length, fr.Reduces (fr.slot ri) →
    rewritten ri = false → StepsAt fr rows (fr.uEnt rows) Rel ri

theorem keeps_near : Keeps fr rows rewritten Near :=
  ⟨fun _ _ h => ⟨h.1, Or.inl h.2⟩, fun _ hri h _ => near_steps hri h⟩

theorem emit_cell {Rel : Lanes (BitVec 64) → Register → Prop} (hent : fr.Entered)
    (hshape : Shaped fr rows rewritten) (hkeeps : Keeps fr rows rewritten Rel) {gi : ℕ} {act : Act}
    (hgi : gi < fr.batch.length) (hact : (fr.msg gi).act = some act) (hne : act ≠ .a) :
    Cell Rel (prefixAt rows (fr.emitRow gi))
      (fr.entOf (fr.uEnt rows) (threadStart rows (fr.emitRow gi)))
      (fr.file gi (fr.msg gi).id) := by
  obtain ⟨hd, hslot⟩ := emitRow_spec hgi hact
  have hbef : fr.bef (fr.slot (fr.emitRow gi)) = fr.file gi (fr.msg gi).id := by
    rw [bef, hslot]
    split
    · next hrole => split at hrole <;> cases hrole
    · rfl
  have hstart : isStart fr.batch (fr.slot (fr.emitRow gi)) = false := by
    have hact' : (msgAt fr.batch gi).act = some act := hact
    rw [hslot]
    cases act <;> simp_all [isStart]
  rw [← hbef]
  exact (cells hent hshape (born_uEnt hent hshape) hkeeps.1 hkeeps.2 _ hd (time_lt hd)).1 hstart

/-- A message that refers to no register is an anomaly. -/
theorem out_none (hent : fr.Entered) (hshape : Shaped fr rows rewritten) {gi : ℕ} {act : Act}
    (hgi : gi < fr.batch.length) (hact : (fr.msg gi).act = some act) (hne : act ≠ .a)
    (hold : fr.file gi (fr.msg gi).id = none) : (fr.out rows gi act).ok = .anomaly := by
  have hcell := emit_cell hent hshape keeps_near hgi hact hne
  rw [hold] at hcell
  obtain ⟨hd, -⟩ := emitRow_spec hgi hact
  simp only [out, preOf_eq rows hd]
  exact emit_anomaly hne hcell

/-- A message that refers to a register is emitted from a state that shows it. -/
theorem out_some {Rel : Lanes (BitVec 64) → Register → Prop} (hent : fr.Entered)
    (hshape : Shaped fr rows rewritten) (hkeeps : Keeps fr rows rewritten Rel) {gi : ℕ} {act : Act}
    (hgi : gi < fr.batch.length) (hact : (fr.msg gi).act = some act) (hne : act ≠ .a)
    {r : Register} (hold : fr.file gi (fr.msg gi).id = some r) :
    Rel (fr.stateAt rows (fr.uEnt rows) (fr.emitRow gi)) r ∧
      fr.out rows gi act = emitForms (fr.stateAt rows (fr.uEnt rows) (fr.emitRow gi)) act
        (if act = .u then (fr.msg gi).newQ else (fr.msg gi).q)
        (if act = .u then (fr.msg gi).newPx else (fr.msg gi).px) := by
  have hcell := emit_cell hent hshape hkeeps hgi hact hne
  rw [hold] at hcell
  obtain ⟨hd, -⟩ := emitRow_spec hgi hact
  obtain ⟨e, he, hdead, hrel⟩ := hcell
  rw [stateAt_eq hd he]
  refine ⟨hrel, ?_⟩
  simp only [out, preOf_eq rows hd, he]
  exact emit_some hne hdead

/-- The wire quantity, read as a signed word. -/
theorem toInt_q {q : ℕ} (h : q < 2 ^ 32) : (BitVec.ofNat 64 q).toInt = q := by
  rw [BitVec.toInt_ofNat']
  simp only [Int.bmod]
  omega

/-- The quantities of the registers fit the wire. -/
def Bounded (f : RegisterFile) : Prop := ∀ id r, f id = some r → r.rem < 2 ^ 32

theorem Bounded.update {f : RegisterFile} {v : Option Register} (hf : Bounded f)
    (hv : ∀ r, v = some r → r.rem < 2 ^ 32) (id : ℕ) : Bounded (Function.update f id v) := by
  intro id' r hr
  rw [Function.update_apply] at hr
  split at hr
  · exact hv r hr
  · exact hf id' r hr

theorem Bounded.reduce {f : RegisterFile} (hf : Bounded f) (id q : ℕ) :
    Bounded (Function.update f id ((f id).map (Register.reduce q))) := by
  apply hf.update
  intro r hr
  obtain ⟨r', hr', rfl⟩ := Option.map_eq_some_iff.mp hr
  exact (Nat.sub_le _ _).trans_lt (hf id r' hr')

theorem Bounded.threadStep {f : RegisterFile} {g : Dec} (hf : Bounded f) (hg : g.Sized) :
    Bounded (f.threadStep g.msg) := by
  have hsome : ∀ {x r : Register}, x.rem < 2 ^ 32 → some x = some r → r.rem < 2 ^ 32 := by
    intro x r hx heq
    rw [← Option.some.inj heq]
    exact hx
  have hnone : ∀ r : Register, none = some r → r.rem < 2 ^ 32 := by
    intro r hr
    cases hr
  rw [Dec.msg]
  split
  · split
    · exact hf
    · exact hf
  · exact hf.update (fun r hr => hsome hg.q_lt hr) _
  · exact hf.reduce _ _
  · exact hf.reduce _ _
  · exact hf.reduce _ _
  · exact hf.update hnone _
  · rw [RegisterFile.threadStep]
    split
    · exact hf.update hnone _
    · next hold =>
        obtain ⟨r, hr⟩ := Option.ne_none_iff_exists'.mp hold
        rw [RegisterFile.step_replace hr]
        exact (hf.update hnone _).update (fun r hr => hsome hg.newQ_lt hr) _

theorem bounded_entry (hent : fr.Entered) : Bounded fr.entry := by
  intro id r hr
  obtain ⟨reg, hcarry, hreg⟩ := Option.bind_eq_some_iff.mp hr
  rw [Reg.register] at hreg
  split at hreg
  · cases hreg
  · next hdead =>
      rw [← Option.some.inj hreg]
      exact hent.rho_lt id reg hcarry (by simpa using hdead)

theorem bounded_file (hent : fr.Entered) (gi : ℕ) : Bounded (fr.file gi) := by
  induction gi with
  | zero => exact bounded_entry hent
  | succ gi ih =>
      rcases Nat.lt_or_ge gi fr.batch.length with hlt | hge
      · rw [file_succ hlt]
        exact ih.threadStep (hent.msg gi)
      · have hfile : fr.file (gi + 1) = fr.file gi := by
          rw [file, file, List.take_of_length_le hge,
            List.take_of_length_le (Nat.le_succ_of_le hge)]
        rw [hfile]
        exact ih

/-! ## The rewriting -/

theorem mem_violations {ri : ℕ} : ri ∈ fr.violations rows rewritten ↔
    ∃ gi < fr.batch.length, ∃ act, (fr.msg gi).act = some act ∧ clampArm act = true ∧
      (fr.out rows gi act).ok = .clamped ∧ rewritten (fr.emitRow gi) = false ∧
      ri = fr.emitRow gi := by
  rw [violations, List.mem_filterMap]
  constructor
  · rintro ⟨gi, hgi, hv⟩
    refine ⟨gi, List.mem_range.mp hgi, ?_⟩
    rw [violation] at hv
    split at hv
    · cases hv
    · cases hv
    · next act hna hact =>
        split at hv
        · next hcond =>
            exact ⟨act, hact, hcond.2.1, hcond.1, by simpa using hcond.2.2,
              (Option.some.inj hv).symm⟩
        · cases hv
  · rintro ⟨gi, hgi, act, hact, hclamp, hok, hrw, rfl⟩
    refine ⟨gi, List.mem_range.mpr hgi, ?_⟩
    rw [violation, hact]
    cases act with
    | a => cases hclamp
    | _ => exact if_pos ⟨hok, hclamp, by simp [hrw]⟩

/-- A re-anchored row takes all that is left. -/
theorem shaped_reanchored (hent : fr.Entered) {r : Round}
    (hshape : Shaped fr r.rows r.rewritten) :
    Shaped fr (fr.reanchored r).rows (fr.reanchored r).rewritten := by
  constructor
  · intro ri hri
    show (if ri ∈ fr.violations r.rows r.rewritten then fr.reanchor r.rows ri else r.rows ri).f = _
    split
    · exact hshape.flag ri hri
    · exact hshape.flag ri hri
  · intro ri hri hrw
    obtain ⟨hold, hnot⟩ := Bool.or_eq_false_iff.mp hrw
    show (if ri ∈ fr.violations r.rows r.rewritten then fr.reanchor r.rows ri else r.rows ri) = _
    rw [if_neg (by simpa using hnot)]
    exact hshape.kept ri hri hold
  · intro ri hri hrw
    by_cases hmem : ri ∈ fr.violations r.rows r.rewritten
    · obtain ⟨gi, hgi, act, hact, hclamp, hok, -, rfl⟩ := mem_violations.mp hmem
      have hne : act ≠ .a := by
        rintro rfl
        cases hclamp
      have hu : act ≠ .u := by
        rintro rfl
        cases hclamp
      obtain ⟨hd, hslot⟩ := emitRow_spec hgi hact
      rw [if_neg hu] at hslot
      have hbef : fr.bef (fr.slot (fr.emitRow gi)) = fr.file gi (fr.msg gi).id := by
        rw [bef, hslot]
      cases hreg : fr.file gi (fr.msg gi).id with
      | none =>
          rw [out_none hent hshape hgi hact hne hreg] at hok
          cases hok
      | some reg =>
          obtain ⟨⟨hident, hrho⟩, hout⟩ := out_some hent hshape keeps_near hgi hact hne hreg
          have hq := (hent.msg gi).q_lt
          have hle : reg.rem ≤ (fr.msg gi).q := by
            rw [hout, emitForms_ok, if_neg hu, toInt_q hq] at hok
            rcases hrho with hrho | hrho
            · rw [hrho, toInt_q (bounded_file hent gi _ reg hreg)] at hok
              split at hok
              · next hcond => omega
              · cases hok
            · omega
          refine ⟨⟨by rw [hslot], act, by rw [hslot]; exact hact, hclamp⟩, reg, by rw [hbef, hreg],
            by rw [hslot]; exact hle, ?_⟩
          have hrow : (fr.reanchored r).rows (fr.emitRow gi) =
              fr.reanchor r.rows (fr.emitRow gi) := if_pos hmem
          rw [hrow]
          exact ⟨rfl, rfl, hident, rfl⟩
    · have hold : r.rewritten ri = true := by
        rcases Bool.or_eq_true_iff.mp hrw with hold | hnew
        · exact hold
        · exact absurd (by simpa using hnew) hmem
      have hrow : (fr.reanchored r).rows ri = r.rows ri := if_neg hmem
      rw [hrow]
      exact hshape.anchored ri hri hold

/-! ## The rounds -/

/-- The rows that have not been rewritten. -/
def remaining (fr : Frame) (rewritten : ℕ → Bool) : Finset ℕ :=
  (Finset.range fr.spec.length).filter fun ri => rewritten ri = false

/-- A round with violations rewrites a row. -/
theorem remaining_lt {r : Round} (h : fr.violations r.rows r.rewritten ≠ []) :
    (fr.remaining (fr.reanchored r).rewritten).card < (fr.remaining r.rewritten).card := by
  obtain ⟨ri, hri⟩ := List.exists_mem_of_ne_nil _ h
  obtain ⟨gi, hgi, act, hact, -, -, hrw, rfl⟩ := mem_violations.mp hri
  have hlt := (emitRow_spec hgi hact).1
  apply Finset.card_lt_card
  refine Finset.ssubset_iff_of_subset ?_ |>.mpr ⟨fr.emitRow gi, ?_, ?_⟩
  · intro rj hrj
    obtain ⟨hrange, hno⟩ := Finset.mem_filter.mp hrj
    exact Finset.mem_filter.mpr ⟨hrange, (Bool.or_eq_false_iff.mp hno).1⟩
  · exact Finset.mem_filter.mpr ⟨Finset.mem_range.mpr hlt, hrw⟩
  · intro hmem
    have hno := (Bool.or_eq_false_iff.mp (Finset.mem_filter.mp hmem).2).2
    simp [hri] at hno

/-- Whether a message is an anomaly is the same in every round. -/
theorem out_anomaly (hent : fr.Entered) (hshape : Shaped fr rows rewritten) {gi : ℕ} {act : Act}
    (hgi : gi < fr.batch.length) (hact : (fr.msg gi).act = some act) (hne : act ≠ .a) :
    (fr.out rows gi act).ok = .anomaly ↔ fr.file gi (fr.msg gi).id = none := by
  constructor
  · intro hok
    cases hreg : fr.file gi (fr.msg gi).id with
    | none => rfl
    | some reg =>
        rw [(out_some hent hshape keeps_near hgi hact hne hreg).2] at hok
        exact (emitForms_ne_anomaly _ _ _ _ hok).elim
  · exact out_none hent hshape hgi hact hne

/-- What a message with a reference writes. -/
theorem write_act {gi : ℕ} {act : Act} (hact : (fr.msg gi).act = some act) (hne : act ≠ .a)
    (c : Token) :
    fr.write rows gi c =
      if (fr.out rows gi act).ok = .anomaly then c
      else
        let printed : Token :=
          if act = .e then { c with sv := (fr.msg gi).pos, pv := (fr.out rows gi act).px }
          else if act = .c ∧ isPrint (fr.msg gi).printable then
            { c with sv := (fr.msg gi).pos, pv := (fr.msg gi).px }
          else c
        { printed with d0 := (fr.out rows gi act).db, d1 := (fr.out rows gi act).da } := by
  rw [write]
  simp only [hact]

/-- A later round writes over what an earlier one has written. -/
theorem write_write (hent : fr.Entered) {rows' : ℕ → RowOp} {rewritten' : ℕ → Bool}
    (hshape : Shaped fr rows rewritten) (hshape' : Shaped fr rows' rewritten') {gi : ℕ}
    (hgi : gi < fr.batch.length) (c : Token) :
    fr.write rows' gi (fr.write rows gi c) = fr.write rows' gi c := by
  cases hact : (fr.msg gi).act with
  | none =>
      simp only [write, hact]
      split
      · rfl
      · rfl
  | some act =>
      by_cases hne : act = .a
      · subst hne
        simp only [write, hact]
        split
        · rfl
        · rfl
      · have hout : (fr.out rows gi act).ok = .anomaly ↔ (fr.out rows' gi act).ok = .anomaly :=
          (out_anomaly hent hshape hgi hact hne).trans (out_anomaly hent hshape' hgi hact hne).symm
        rw [write_act hact hne, write_act hact hne, write_act hact hne]
        by_cases hok : (fr.out rows gi act).ok = .anomaly
        · rw [if_pos hok]
        · rw [if_neg hok, if_neg (mt hout.mpr hok), if_neg (mt hout.mpr hok)]
          by_cases he : act = .e
          · simp only [if_pos he]
          · simp only [if_neg he]
            split
            · rfl
            · rfl

/-- The loop ends, and the last round writes every column anew. -/
theorem rounds_ok (hent : fr.Entered) (fuel : ℕ) (r : Round)
    (hshape : Shaped fr r.rows r.rewritten) (hfuel : (fr.remaining r.rewritten).card < fuel) :
    ∃ r', fr.rounds fuel r = .ok r' ∧ Shaped fr r'.rows r'.rewritten ∧
      fr.violations r'.rows r'.rewritten = [] ∧
      ∀ gi < fr.batch.length, r'.cols gi = fr.write r'.rows gi (r.cols gi) := by
  induction fuel generalizing r with
  | zero => exact absurd hfuel (Nat.not_lt_zero _)
  | succ fuel ih =>
      rw [rounds]
      by_cases hviol : fr.violations r.rows r.rewritten = []
      · refine ⟨fr.emitted r, if_pos hviol, hshape, hviol, fun _ _ => rfl⟩
      · have hlt := remaining_lt hviol
        obtain ⟨r', hok, hshape', hviol', hcols⟩ := ih (fr.reanchored (fr.emitted r))
          (shaped_reanchored hent hshape) (by
            have heq : (fr.reanchored (fr.emitted r)).rewritten = (fr.reanchored r).rewritten := rfl
            rw [heq]
            omega)
        refine ⟨r', (if_neg hviol).trans hok, hshape', hviol', fun gi hgi => ?_⟩
        rw [hcols gi hgi]
        exact write_write hent hshape hshape' hgi _

theorem shaped_begin (cols : ℕ → Token) :
    Shaped fr (fr.begin cols).rows (fr.begin cols).rewritten :=
  ⟨fun _ _ => rfl, fun _ _ _ => rfl, fun _ _ hrw => by cases hrw⟩

/-! ## The final round -/

/-- Without violations a row that has not been rewritten takes no more than is left. -/
theorem keeps_exact (hent : fr.Entered) (hviol : fr.violations rows rewritten = []) :
    Keeps fr rows rewritten Exact := by
  refine ⟨fun _ _ h => h, ?_⟩
  rintro ri hri hreduces hrw e r he hbef hdead ⟨⟨hask, hpx⟩, hrem⟩
  obtain ⟨hrole, act, hact, hclamp⟩ := hreduces
  have hne : act ≠ .a := by
    rintro rfl
    cases hclamp
  have hu : act ≠ .u := by
    rintro rfl
    cases hclamp
  obtain ⟨hgi, hslots⟩ := slot_cases (slot_mem hri)
  obtain ⟨hd, hslot⟩ := emitRow_spec hgi hact
  have hrow : fr.emitRow (fr.slot ri).gi = ri := by
    apply slot_inj hd hri
    rw [hslot, if_neg hu]
    rcases hslots with ⟨hnew, -⟩ | ⟨act', -, -, htid⟩
    · rw [hrole] at hnew
      cases hnew
    · rw [← hrole, ← htid]
  have hbounded : r.rem < 2 ^ 32 := by
    have hfile : fr.bef (fr.slot ri) = fr.file (fr.slot ri).gi (fr.slot ri).tid := by
      simp only [bef, hrole]
    exact bounded_file hent _ _ r (hfile ▸ hbef)
  have hle : (fr.msg (fr.slot ri).gi).q ≤ r.rem := by
    by_contra hlt
    have hmem : ri ∈ fr.violations rows rewritten := by
      refine mem_violations.mpr ⟨_, hgi, act, hact, hclamp, ?_, ?_, hrow.symm⟩
      · simp only [out, hrow, preOf_eq rows hri, he]
        rw [emit_some hne hdead, emitForms_ok, if_neg hu, hrem, toInt_q hbounded,
          toInt_q (hent.msg _).q_lt, if_pos]
        exact ⟨hu, by omega⟩
      · rw [hrow]
        exact hrw
    rw [hviol] at hmem
    cases hmem
  rw [apply_reduces hri ⟨hrole, act, hact, hclamp⟩]
  refine ⟨⟨hask, hpx⟩, ?_⟩
  show (prefixAt rows ri).apply e 2 - _ = BitVec.ofNat 64 (r.rem - _)
  rw [hrem, ← Nat.sub_add_cancel hle, BitVec.ofNat_add, add_sub_cancel_right, Nat.add_sub_cancel]

/-- The bid selector sends a delta to the register's side. -/
theorem ident_selects {o : Lanes (BitVec 64)} {r : Register} (h : Ident o r) (d : BitVec 64) :
    (if ¬o 0 = 0 then d else 0) = (if r.ask then 0 else d) ∧
      (if ¬o 0 = 0 then 0 else d) = if r.ask then d else 0 := by
  have hask : ¬o 0 = 0 ↔ ¬r.ask = true := not_congr h.1
  simp only [hask, ite_not, and_self]

/-- A quantity taken from an exact state. -/
theorem emitForms_taken {o : Lanes (BitVec 64)} {r : Register} {act : Act} {q : ℕ} (px : ℕ)
    (h : Exact o r) (hrem : r.rem < 2 ^ 32) (hq : q < 2 ^ 32) (hclamp : clampArm act = true) :
    emitForms o act q px =
      ⟨if r.ask then 0 else -BitVec.ofNat 64 (min q r.rem),
        if r.ask then -BitVec.ofNat 64 (min q r.rem) else 0,
        if act = .e then r.px else if act = .c then px else 0,
        if q > r.rem then .clamped else .clean⟩ := by
  obtain ⟨hident, ho⟩ := h
  have hlt : (BitVec.ofNat 64 r.rem).toInt < (BitVec.ofNat 64 q).toInt ↔ r.rem < q := by
    rw [toInt_q hrem, toInt_q hq]
    exact Nat.cast_lt
  have hd : (if r.rem < q then BitVec.ofNat 64 r.rem else BitVec.ofNat 64 q) =
      BitVec.ofNat 64 (min q r.rem) := by
    split
    · next h => rw [min_eq_right h.le]
    · next h => rw [min_eq_left (Nat.le_of_not_lt h)]
  cases act with
  | a => cases hclamp
  | d => cases hclamp
  | u => cases hclamp
  | _ =>
      simp only [emitForms, ne_eq, reduceCtorEq, not_false_eq_true, true_and, ho, hlt,
        decide_eq_true_eq, hd, gt_iff_lt, hident.2, if_true, if_false,
        (ident_selects hident _).1, (ident_selects hident _).2]

/-- A delete takes what is left. -/
theorem emitForms_delete {o : Lanes (BitVec 64)} {r : Register} (px : ℕ) (h : Exact o r)
    (hrem : r.rem < 2 ^ 32) :
    emitForms o .d 0 px =
      ⟨if r.ask then 0 else -BitVec.ofNat 64 r.rem, if r.ask then -BitVec.ofNat 64 r.rem else 0,
        0, .clean⟩ := by
  obtain ⟨hident, ho⟩ := h
  have hlt : ¬(BitVec.ofNat 64 r.rem).toInt < (BitVec.ofNat 64 0).toInt := by
    rw [toInt_q hrem, toInt_q (by decide)]
    exact not_lt.mpr (Nat.cast_nonneg _)
  simp only [emitForms, ne_eq, ho, hlt, and_false, decide_false, Bool.false_eq_true, if_false,
    (ident_selects hident _).1, (ident_selects hident _).2]

/-- A replace takes what is left and puts the new quantity in its place. -/
theorem emitForms_replace {o : Lanes (BitVec 64)} {r : Register} (q px : ℕ) (h : Exact o r) :
    emitForms o .u q px =
      ⟨if r.ask then 0 else BitVec.ofNat 64 q - BitVec.ofNat 64 r.rem,
        if r.ask then BitVec.ofNat 64 q - BitVec.ofNat 64 r.rem else 0, 0, .clean⟩ := by
  obtain ⟨hident, ho⟩ := h
  simp only [emitForms, ne_eq, not_true_eq_false, false_and, decide_false, Bool.false_eq_true,
    if_false, ho, (ident_selects hident _).1, (ident_selects hident _).2]

/-- What the final round writes and counts is what the message resolves to. -/
theorem final_effect (hent : fr.Entered) (hshape : Shaped fr rows rewritten)
    (hviol : fr.violations rows rewritten = []) {gi : ℕ} (hgi : gi < fr.batch.length) :
    let g := fr.msg gi
    let effect := g.msg.effect g.pos (g.msg.hit (fr.file gi))
    fr.write rows gi .empty = effect.token ∧
      fr.counts rows gi = (effect.anomalies, effect.clamps, effect.zeroRemKeeps) := by
  intro g effect
  cases hact : (fr.msg gi).act with
  | none =>
      simp only [effect, g, write, counts, hact, Dec.msg]
      split
      · exact ⟨rfl, rfl⟩
      · exact ⟨rfl, rfl⟩
  | some act =>
      by_cases hne : act = .a
      · subst hne
        simp only [effect, g, write, counts, hact, Dec.msg, Msg.effect, sideAsk]
        split
        · next hside => exact ⟨by rw [decide_eq_true hside]; rfl, trivial⟩
        · next hside => exact ⟨by rw [decide_eq_false hside]; rfl, trivial⟩
      · have hcounts := @counts_act fr rows gi act hact hne
        have href : g.msg.ref = some (fr.msg gi).id := by
          simp only [g, Dec.msg, hact]
          cases act with
          | a => exact absurd rfl hne
          | _ => rfl
        have hhit : g.msg.hit (fr.file gi) = fr.file gi (fr.msg gi).id := by
          rw [Msg.hit, href, Option.bind_some]
        cases hreg : fr.file gi (fr.msg gi).id with
        | none =>
            have hok := out_none hent hshape hgi hact hne hreg
            simp only [effect]
            rw [hhit, hreg, Msg.effect_absent _ href, write_act hact hne, if_pos hok, hcounts, hok]
            exact ⟨rfl, rfl⟩
        | some r =>
            have hrem := bounded_file hent gi _ r hreg
            have hq := (hent.msg gi).q_lt
            obtain ⟨hexact, hout⟩ :=
              out_some hent hshape (keeps_exact hent hviol) hgi hact hne hreg
            have hok : (fr.out rows gi act).ok ≠ .anomaly := fun hok => by
              rw [out_anomaly hent hshape hgi hact hne, hreg] at hok
              cases hok
            simp only [effect]
            rw [hhit, hreg, write_act hact hne, if_neg hok, hcounts]
            simp only [g, Dec.msg, hact]
            cases act with
            | a => exact absurd rfl hne
            | u =>
                simp only [hout, reduceCtorEq, if_false, if_true, false_and,
                  emitForms_replace _ _ hexact]
                refine ⟨?_, rfl⟩
                cases hask : r.ask <;> simp [Msg.effect, Token.volume, Token.empty, hask]
            | d =>
                simp only [hout, reduceCtorEq, if_false, false_and, (hent.msg gi).delete_q hact,
                  emitForms_delete _ hexact hrem]
                refine ⟨?_, rfl⟩
                cases hask : r.ask <;> simp [Msg.effect, Token.volume, Token.empty, hask]
            | c =>
                simp only [hout, reduceCtorEq, if_false, if_true, true_and,
                  emitForms_taken _ hexact hrem hq (show clampArm .c = true from rfl)]
                constructor
                · cases hask : r.ask <;> cases hprint : isPrint (fr.msg gi).printable <;>
                    simp [Msg.effect, Effect.reduction, Token.volume, Token.empty, hask, hprint]
                · by_cases hlt : (fr.msg gi).q > r.rem <;>
                    simp [Msg.effect, Effect.reduction, hlt]
            | e =>
                simp only [hout, reduceCtorEq, if_false, if_true,
                  emitForms_taken _ hexact hrem hq (show clampArm .e = true from rfl)]
                constructor
                · cases hask : r.ask <;> simp [Msg.effect, Effect.reduction, Token.volume, hask]
                · by_cases hlt : (fr.msg gi).q > r.rem <;>
                    simp [Msg.effect, Effect.reduction, hlt]
            | x =>
                simp only [hout, reduceCtorEq, if_false, false_and,
                  emitForms_taken _ hexact hrem hq (show clampArm .x = true from rfl)]
                constructor
                · cases hask : r.ask <;>
                    simp [Msg.effect, Effect.reduction, Token.volume, Token.empty, hask]
                · by_cases hlt : (fr.msg gi).q > r.rem <;>
                    simp [Msg.effect, Effect.reduction, hlt]

end Cells

/-! ## Convergence -/

/-- The final round of a batch. -/
theorem final_round (hent : fr.Entered) : ∃ r,
    fr.rounds (fr.spec.length + 1) (fr.begin fun _ => .empty) = .ok r ∧
      Shaped fr r.rows r.rewritten ∧ fr.violations r.rows r.rewritten = [] ∧
      ∀ gi < fr.batch.length, r.cols gi = fr.write r.rows gi .empty := by
  apply rounds_ok hent _ _ (shaped_begin _)
  have hcard := Finset.card_filter_le (Finset.range fr.spec.length)
    fun ri => (fr.begin fun _ => .empty).rewritten ri = false
  rw [Finset.card_range] at hcard
  exact Nat.lt_succ_of_le hcard

/-- The loop ends within one round more than there are rows. In its final round a position is an
anomaly just where its thread shows no register; where there is one, the position sees what is
left there, an E, a C or an X takes no more than that, a D exactly that, and a U exactly that
for its new quantity. -/
theorem reanchor_converges (fr : Frame) (hent : fr.Entered) : ∃ r,
    fr.rounds (fr.spec.length + 1) (fr.begin fun _ => .empty) = .ok r ∧
      ∀ gi < fr.batch.length, ∀ act, (fr.msg gi).act = some act → act ≠ .a →
        ((fr.out r.rows gi act).ok = .anomaly ↔ fr.file gi (fr.msg gi).id = none) ∧
        ∀ reg, fr.file gi (fr.msg gi).id = some reg →
          (fr.stateAt r.rows (fr.uEnt r.rows) (fr.emitRow gi) 2).toInt = reg.rem ∧
          r.cols gi = ((fr.msg gi).msg.effect (fr.msg gi).pos (some reg)).token ∧
          (r.cols gi).side (!reg.ask) = 0 ∧
          (r.cols gi).side reg.ask =
            match act with
            | .d => -BitVec.ofNat 64 reg.rem
            | .u => BitVec.ofNat 64 (fr.msg gi).newQ - BitVec.ofNat 64 reg.rem
            | _ => -BitVec.ofNat 64 (min (fr.msg gi).q reg.rem) := by
  obtain ⟨r, hok, hshape, hviol, hcols⟩ := final_round hent
  refine ⟨r, hok, fun gi hgi act hact hne =>
    ⟨out_anomaly hent hshape hgi hact hne, fun reg hreg => ?_⟩⟩
  obtain ⟨⟨-, hrho⟩, -⟩ := out_some hent hshape (keeps_exact hent hviol) hgi hact hne hreg
  have htoken : r.cols gi = ((fr.msg gi).msg.effect (fr.msg gi).pos (some reg)).token := by
    have href : (fr.msg gi).msg.hit (fr.file gi) = some reg := by
      rw [← hreg]
      simp only [Dec.msg, hact]
      cases act with
      | a => exact absurd rfl hne
      | _ => rfl
    rw [hcols gi hgi, (final_effect hent hshape hviol hgi).1, href]
  refine ⟨?_, htoken, ?_⟩
  · rw [hrho]
    exact toInt_q (bounded_file hent gi _ reg hreg)
  · rw [htoken]
    simp only [Dec.msg, hact]
    cases act with
    | a => exact absurd rfl hne
    | _ => simp [Msg.effect, Effect.reduction, Token.side_volume]

/-- A bid for 5 at 100, an execution of 9 and an execution of 2. -/
def overExecuted : Frame where
  batch := [
    { t := 'A'.toNat, act := some .a, loc := 1, id := 7, q := 5, px := 100, side := 'B'.toNat,
      printable := 0, newId := 0, newQ := 0, newPx := 0, pos := 1 },
    { t := 'E'.toNat, act := some .e, loc := 1, id := 7, q := 9, px := 0, side := 0,
      printable := 0, newId := 0, newQ := 0, newPx := 0, pos := 2 },
    { t := 'E'.toNat, act := some .e, loc := 1, id := 7, q := 2, px := 0, side := 0,
      printable := 0, newId := 0, newQ := 0, newPx := 0, pos := 3 }]
  carry := fun _ => none

theorem reanchor_converges_overExecuted : ∃ r,
    overExecuted.rounds (overExecuted.spec.length + 1) (overExecuted.begin fun _ => .empty) =
        .ok r ∧
      r.cols 1 = ⟨2, 100, -5, 0⟩ ∧ r.cols 2 = ⟨3, 100, 0, 0⟩ := by
  have hent : overExecuted.Entered := by
    constructor
    · intro g hg
      have hfields : g.q < 2 ^ 32 ∧ g.px < 2 ^ 32 ∧ g.newQ < 2 ^ 32 ∧ g.newPx < 2 ^ 32 ∧
          g.loc < 2 ^ 16 ∧ g.act ≠ some .d := by
        revert g
        decide
      exact ⟨hfields.1, hfields.2.1, hfields.2.2.1, hfields.2.2.2.1, hfields.2.2.2.2.1,
        fun hd => absurd hd hfields.2.2.2.2.2⟩
    · intro id r hr
      cases hr
  obtain ⟨r, hok, hall⟩ := reanchor_converges overExecuted hent
  refine ⟨r, hok, ?_, ?_⟩
  · exact ((hall 1 (by decide) .e rfl (by decide)).2 ⟨false, 100, 5⟩ (by decide)).2.1
  · exact ((hall 2 (by decide) .e rfl (by decide)).2 ⟨false, 100, 0⟩ (by decide)).2.1

end Frame

end HftProj.Testkit.SigPush
