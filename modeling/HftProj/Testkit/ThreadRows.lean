import HftProj.Testkit.SigPush

/-!
# The rows of a batch

The rows of a batch are the writes of a run on the register file, one or two for each message.
The buckets are its threads: a row begins a run of the scan, or finds what the row before it
left.
-/

namespace HftProj.Testkit.SigPush

open HftProj.Lib
open OrderScan

/-! ## The batch as register writes -/

/-- The register that a carry register shows. -/
def Reg.register (r : Reg) : Option Register :=
  if r.dead then none else some ⟨r.sb = 0, (r.pi >>> 32).toNat, r.rho.toNat⟩

namespace Frame

variable (fr : Frame)

/-- The register file that the batch is entered with. -/
def entry : RegisterFile := fun id => (fr.carry id).bind Reg.register

/-- The sequential register file before a message of the batch. -/
def file (gi : ℕ) : RegisterFile :=
  ((fr.batch.take gi).map Dec.msg).foldl RegisterFile.threadStep fr.entry

/-- The register that a row finds. -/
def bef (s : Slot) : Option Register :=
  match s.role with
  | .uNew => Function.update (fr.file s.gi) (fr.msg s.gi).id none s.tid
  | _ => fr.file s.gi s.tid

/-- The register that a row leaves. -/
def aft (s : Slot) : Option Register :=
  let g := fr.msg s.gi
  match s.role with
  | .uNew => (fr.file s.gi g.id).map fun r => ⟨r.ask, g.newPx, g.newQ⟩
  | .uOld => none
  | .ref =>
      match g.act with
      | some .a => some ⟨sideAsk g.side, g.px, g.q⟩
      | some .d => none
      | _ => (fr.file s.gi s.tid).map (Register.reduce g.q)

/-- The order of the rows' messages, a replace's old register before its new one. -/
def time (s : Slot) : ℕ := 2 * s.gi + if s.role = .uNew then 1 else 0

variable {fr} {gi : ℕ}

theorem msg_eq (h : gi < fr.batch.length) : fr.msg gi = fr.batch[gi] := by
  rw [msg, msgAt, List.getD_eq_getElem?_getD, List.getElem?_eq_getElem h, Option.getD_some]

theorem file_succ (h : gi < fr.batch.length) :
    fr.file (gi + 1) = (fr.file gi).threadStep (fr.msg gi).msg := by
  rw [file, List.take_succ_eq_append_getElem h, List.map_append, List.foldl_append, msg_eq h]
  rfl

/-- A message writes what its rows say. -/
theorem slotsOf_run (h : gi < fr.batch.length) :
    Threads.Runs Slot.tid fr.bef fr.aft (fr.file gi) (slotsOf gi (fr.msg gi)) ∧
      fr.file (gi + 1) =
        Threads.run Slot.tid fr.aft (fr.file gi) (slotsOf gi (fr.msg gi)) := by
  rw [file_succ h]
  cases hact : (fr.msg gi).act with
  | none =>
      simp only [slotsOf, hact, Dec.msg, Threads.Runs, Threads.run, List.foldl_nil, true_and]
      split <;> rfl
  | some act =>
      cases act with
      | u =>
          simp only [slotsOf, hact, Threads.Runs, Threads.run, List.foldl_cons, List.foldl_nil,
            bef, aft, Dec.msg, and_true, true_and]
          rw [RegisterFile.threadStep]
          cases hold : fr.file gi (fr.msg gi).id with
          | none =>
              rw [if_pos rfl, Option.map_none, ← hold, Function.update_eq_self]
          | some r =>
              rw [if_neg (Option.some_ne_none r), RegisterFile.step_replace hold]
              rfl
      | _ =>
          simp only [slotsOf, hact, Threads.Runs, Threads.run, List.foldl_cons, List.foldl_nil,
            bef, aft, Dec.msg, and_true, true_and]
          rfl

/-- The rows that the first messages ask for. -/
def slotsTo (fr : Frame) (k : ℕ) : List Slot :=
  (List.range k).flatMap fun gi => slotsOf gi (fr.msg gi)

theorem slotsTo_succ (k : ℕ) : fr.slotsTo (k + 1) = fr.slotsTo k ++ slotsOf k (fr.msg k) := by
  rw [slotsTo, List.range_succ, List.flatMap_append, List.flatMap_singleton]
  rfl

theorem slotsTo_run {k : ℕ} (hk : k ≤ fr.batch.length) :
    Threads.Runs Slot.tid fr.bef fr.aft fr.entry (fr.slotsTo k) ∧
      fr.file k = Threads.run Slot.tid fr.aft fr.entry (fr.slotsTo k) := by
  induction k with
  | zero => exact ⟨trivial, rfl⟩
  | succ k ih =>
      obtain ⟨hruns, hfile⟩ := ih (by omega)
      obtain ⟨hruns', hfile'⟩ := @slotsOf_run fr k (by omega)
      rw [slotsTo_succ, Threads.run_append, ← hfile]
      exact ⟨hruns.append (hfile ▸ hruns'), hfile'⟩

theorem gi_of_mem {gi : ℕ} {g : Dec} {s : Slot} (h : s ∈ slotsOf gi g) : s.gi = gi := by
  rw [slotsOf] at h
  split at h
  · rcases List.mem_cons.mp h with rfl | h
    · rfl
    · rw [List.mem_singleton.mp h]
  · rw [List.mem_singleton.mp h]
  · cases h

theorem mem_slotsTo {k : ℕ} {s : Slot} :
    s ∈ fr.slotsTo k ↔ s.gi < k ∧ s ∈ slotsOf s.gi (fr.msg s.gi) := by
  rw [slotsTo, List.mem_flatMap]
  constructor
  · rintro ⟨gi, hgi, hs⟩
    obtain rfl := gi_of_mem hs
    exact ⟨List.mem_range.mp hgi, hs⟩
  · rintro ⟨hlt, hs⟩
    exact ⟨s.gi, List.mem_range.mpr hlt, hs⟩

theorem slotsOf_sorted (gi : ℕ) (g : Dec) :
    (slotsOf gi g).Pairwise fun s s' => time s < time s' := by
  rw [slotsOf]
  split
  · simp [time]
  · exact List.pairwise_singleton _ _
  · exact List.Pairwise.nil

theorem slotsTo_sorted (k : ℕ) : (fr.slotsTo k).Pairwise fun s s' => time s < time s' := by
  induction k with
  | zero => exact List.Pairwise.nil
  | succ k ih =>
      rw [slotsTo_succ, List.pairwise_append]
      refine ⟨ih, slotsOf_sorted k _, fun s hs s' hs' => ?_⟩
      have hlt := (mem_slotsTo.mp hs).1
      have heq := gi_of_mem hs'
      rw [time, time]
      split <;> split <;> omega

/-! ## The rows of the table -/

/-- The first row of a run: a birth, or the first row of its thread. -/
def Begins (fr : Frame) (s : Slot) : Prop := isStart fr.batch s ∨ fr.bef s = fr.entry s.tid

/-- A row that goes on where the one before it stopped. -/
def GoesOn (fr : Frame) (s s' : Slot) : Prop :=
  fr.bef s' = fr.aft s ∧ time s < time s' ∧ s.tid = s'.tid

/-- Every row of a table begins a run, flagged, or goes on from the row before it. -/
def Placed (fr : Frame) (rows : List (Slot × RowOp)) : Prop :=
  ∀ ri, (h : ri < rows.length) →
    (rows[ri].2 = rowOf fr.batch rows[ri].1 ∧ fr.Begins rows[ri].1) ∨
    (rows[ri].2 = { rowOf fr.batch rows[ri].1 with f := false } ∧
      ¬isStart fr.batch rows[ri].1 ∧ ∃ rj, ∃ hj : rj < rows.length, ri = rj + 1 ∧
        fr.GoesOn rows[rj].1 rows[ri].1)

theorem Placed.append {xs ys : List (Slot × RowOp)} (hx : fr.Placed xs) (hy : fr.Placed ys) :
    fr.Placed (xs ++ ys) := by
  intro ri h
  rcases Nat.lt_or_ge ri xs.length with hlt | hge
  · rw [List.getElem_append_left hlt]
    refine (hx ri hlt).imp_right ?_
    rintro ⟨hrow, hstart, rj, hj, heq, hgo⟩
    refine ⟨hrow, hstart, rj, by rw [List.length_append]; omega, heq, ?_⟩
    rwa [List.getElem_append_left hj]
  · rw [List.length_append] at h
    rw [List.getElem_append_right hge]
    refine (hy (ri - xs.length) (by omega)).imp_right ?_
    rintro ⟨hrow, hstart, rj, hj, heq, hgo⟩
    refine ⟨hrow, hstart, rj + xs.length, by rw [List.length_append]; omega, by omega, ?_⟩
    rw [List.getElem_append_right (by omega)]
    simpa using hgo

theorem rowOf_f (batch : List Dec) (s : Slot) : (rowOf batch s).f = true := by
  rw [rowOf]
  split
  · rfl
  · rfl
  · split
    · rfl
    · cases (msgAt batch s.gi).act.getD .a <;> rfl

theorem bucketRows_slots (batch : List Dec) (ss : List Slot) :
    (bucketRows batch ss).map Prod.fst = ss := by
  cases ss with
  | nil => rfl
  | cons s rest =>
      rw [bucketRows, List.map_cons, List.map_map]
      exact congrArg _ (List.map_id rest)

theorem placed_bucketRows {ss : List Slot} {id : ℕ} (hlinked : Threads.Linked fr.bef fr.aft
      (fr.entry id) ss) (hsorted : ss.Pairwise fun s s' => time s < time s')
    (htid : ∀ s ∈ ss, s.tid = id) : fr.Placed (bucketRows fr.batch ss) := by
  have hslot : ∀ ri, (h : ri < (bucketRows fr.batch ss).length) → ∃ h' : ri < ss.length,
      (bucketRows fr.batch ss)[ri].1 = ss[ri] := by
    intro ri h
    have hmap := bucketRows_slots fr.batch ss
    have hlen : ri < ((bucketRows fr.batch ss).map Prod.fst).length := by rwa [List.length_map]
    refine ⟨hmap ▸ hlen, ?_⟩
    rw [← List.getElem_map Prod.fst (h := hlen)]
    simp only [hmap]
  cases ss with
  | nil =>
      intro ri h
      exact absurd h (Nat.not_lt_zero ri)
  | cons s rest =>
      intro ri h
      cases ri with
      | zero =>
          refine Or.inl ⟨rfl, Or.inr ?_⟩
          show fr.bef s = fr.entry s.tid
          rw [htid s List.mem_cons_self]
          exact hlinked.1
      | succ rj =>
          obtain ⟨h', hfst⟩ := hslot (rj + 1) h
          obtain ⟨hj', hfstj⟩ := hslot rj (by omega)
          have hop : (bucketRows fr.batch (s :: rest))[rj + 1].2 =
              if isStart fr.batch (s :: rest)[rj + 1] then rowOf fr.batch (s :: rest)[rj + 1]
              else { rowOf fr.batch (s :: rest)[rj + 1] with f := false } := by
            simp only [bucketRows, List.getElem_cons_succ, List.getElem_map]
          rw [hfst, hop]
          by_cases hstart : isStart fr.batch (s :: rest)[rj + 1]
          · rw [if_pos hstart]
            exact Or.inl ⟨rfl, Or.inl hstart⟩
          · rw [if_neg hstart]
            refine Or.inr ⟨rfl, hstart, rj, by omega, rfl, ?_⟩
            rw [hfstj]
            refine ⟨hlinked.getElem_succ h', List.pairwise_iff_getElem.mp hsorted _ _ hj' h'
              (Nat.lt_succ_self rj), ?_⟩
            rw [htid _ (List.getElem_mem hj'), htid _ (List.getElem_mem h')]

theorem sorted_buckets :
    Threads.Sorted Slot.tid (buckets fr.batch) (fr.slotsTo fr.batch.length) :=
  Threads.sorted_bucketed (slots fr.batch)

theorem placed_table : fr.Placed (table fr.batch) := by
  have hsorted := @sorted_buckets fr
  have hall : ∀ bs : List (ℕ × List Slot), (∀ b ∈ bs, b ∈ buckets fr.batch) →
      fr.Placed (bs.flatMap fun b => bucketRows fr.batch b.2) := by
    intro bs
    induction bs with
    | nil =>
        intro _ ri h
        exact absurd h (Nat.not_lt_zero ri)
    | cons b bs ih =>
        intro hmem
        rw [List.flatMap_cons]
        apply Placed.append _ (ih fun b' hb' => hmem b' (List.mem_cons_of_mem _ hb'))
        obtain ⟨hthread, -⟩ := hsorted.thread b (hmem b List.mem_cons_self)
        rw [hthread]
        apply placed_bucketRows ((slotsTo_run (Nat.le_refl _)).1.linked b.1)
        · exact (slotsTo_sorted _).filter _
        · intro s hs
          simpa using (List.mem_filter.mp hs).2
  exact hall _ fun _ hb => hb

theorem spec_eq : fr.spec = (buckets fr.batch).flatMap Prod.snd := by
  rw [spec, table, List.map_flatMap]
  congr 1
  funext b
  exact bucketRows_slots fr.batch b.2

theorem spec_perm : fr.spec.Perm (fr.slotsTo fr.batch.length) := by
  rw [spec_eq]
  exact sorted_buckets.perm

theorem slot_eq {ri : ℕ} (h : ri < fr.spec.length) : fr.slot ri = fr.spec[ri] := by
  rw [slot, List.getD_eq_getElem?_getD, List.getElem?_eq_getElem h, Option.getD_some]

theorem slot_mem {ri : ℕ} (h : ri < fr.spec.length) :
    fr.slot ri ∈ fr.slotsTo fr.batch.length := by
  rw [slot_eq h]
  exact spec_perm.mem_iff.mp (List.getElem_mem h)

theorem slot_inj {ri rj : ℕ} (hi : ri < fr.spec.length) (hj : rj < fr.spec.length)
    (h : fr.slot ri = fr.slot rj) : ri = rj := by
  have hnodup : fr.spec.Nodup := by
    rw [spec_perm.nodup_iff]
    refine (slotsTo_sorted _).imp fun hlt heq => ?_
    rw [heq] at hlt
    exact Nat.lt_irrefl _ hlt
  rw [slot_eq hi, slot_eq hj] at h
  exact (hnodup.getElem_inj_iff).mp h

/-- The rows of the table, by their places. -/
theorem row_cases {ri : ℕ} (h : ri < fr.spec.length) :
    (fr.rows ri = rowOf fr.batch (fr.slot ri) ∧ fr.Begins (fr.slot ri)) ∨
    (fr.rows ri = { rowOf fr.batch (fr.slot ri) with f := false } ∧
      ¬isStart fr.batch (fr.slot ri) ∧ ∃ rj, ri = rj + 1 ∧ fr.GoesOn (fr.slot rj) (fr.slot ri)) := by
  have hlen : fr.spec.length = (table fr.batch).length := by rw [spec, List.length_map]
  have hslot : ∀ rj, (hj : rj < (table fr.batch).length) → fr.slot rj = (table fr.batch)[rj].1 := by
    intro rj hj
    rw [slot_eq (hlen ▸ hj)]
    exact List.getElem_map ..
  have hi : ri < (table fr.batch).length := hlen ▸ h
  have hrow : fr.rows ri = (table fr.batch)[ri].2 := by
    have hmap : ri < ((table fr.batch).map Prod.snd).length := by rwa [List.length_map]
    rw [rows, List.getD_eq_getElem?_getD, List.getElem?_eq_getElem hmap, Option.getD_some,
      List.getElem_map]
  rw [hrow, hslot ri hi]
  refine (placed_table ri hi).imp_right ?_
  rintro ⟨hop, hstart, rj, hj, heq, hgo⟩
  refine ⟨hop, hstart, rj, heq, ?_⟩
  rwa [hslot rj hj]

/-- A predicate on the rows finds the one row it is about. -/
theorem findIdx_slot {p : Slot → Bool} {s : Slot} (hs : s ∈ fr.slotsTo fr.batch.length)
    (hp : p s) (huniq : ∀ s' ∈ fr.slotsTo fr.batch.length, p s' → s' = s) :
    fr.spec.findIdx p < fr.spec.length ∧ fr.slot (fr.spec.findIdx p) = s := by
  have hlt := List.findIdx_lt_length_of_exists ⟨s, spec_perm.mem_iff.mpr hs, hp⟩
  refine ⟨hlt, ?_⟩
  apply huniq _ (slot_mem hlt)
  rw [slot_eq hlt]
  exact List.findIdx_getElem

/-- The row of a message with an order. -/
theorem emitRow_spec {gi : ℕ} {act : Act} (hgi : gi < fr.batch.length)
    (hact : (fr.msg gi).act = some act) :
    fr.emitRow gi < fr.spec.length ∧
      fr.slot (fr.emitRow gi) = ⟨gi, if act = .u then .uOld else .ref, (fr.msg gi).id⟩ := by
  apply findIdx_slot
  · rw [mem_slotsTo]
    refine ⟨hgi, ?_⟩
    rw [slotsOf, hact]
    cases act <;> simp
  · cases act <;> simp
  · intro s hs hp
    obtain ⟨hsgi, hrole⟩ := of_decide_eq_true hp
    have hmem := (mem_slotsTo.mp hs).2
    rw [hsgi, slotsOf, hact] at hmem
    cases act with
    | u =>
        rcases List.mem_cons.mp hmem with rfl | hmem
        · rfl
        · rw [List.mem_singleton.mp hmem] at hrole
          exact absurd rfl hrole
    | _ => exact List.mem_singleton.mp hmem

/-- The row of a replace's new register. -/
theorem uNewRow_spec {gi : ℕ} (hgi : gi < fr.batch.length) (hact : (fr.msg gi).act = some .u) :
    fr.uNewRow gi < fr.spec.length ∧
      fr.slot (fr.uNewRow gi) = ⟨gi, .uNew, (fr.msg gi).newId⟩ := by
  apply findIdx_slot
  · rw [mem_slotsTo]
    refine ⟨hgi, ?_⟩
    rw [slotsOf, hact]
    simp
  · simp
  · intro s hs hp
    obtain ⟨hsgi, hrole⟩ := of_decide_eq_true hp
    have hmem := (mem_slotsTo.mp hs).2
    rw [hsgi, slotsOf, hact] at hmem
    rcases List.mem_cons.mp hmem with rfl | hmem
    · cases hrole
    · exact List.mem_singleton.mp hmem

/-- What a row stands for, by its role. -/
theorem slot_cases {s : Slot} (h : s ∈ fr.slotsTo fr.batch.length) : s.gi < fr.batch.length ∧
    ((s.role = .uNew ∧ (fr.msg s.gi).act = some .u ∧ s.tid = (fr.msg s.gi).newId) ∨
      ∃ act, (fr.msg s.gi).act = some act ∧ s.role = (if act = .u then .uOld else .ref) ∧
        s.tid = (fr.msg s.gi).id) := by
  obtain ⟨hgi, hmem⟩ := mem_slotsTo.mp h
  refine ⟨hgi, ?_⟩
  rw [slotsOf] at hmem
  split at hmem
  · next hact =>
      rcases List.mem_cons.mp hmem with heq | hmem
      · right
        refine ⟨.u, hact, ?_, ?_⟩
        · exact congrArg Slot.role heq
        · exact congrArg Slot.tid heq
      · left
        have heq := List.mem_singleton.mp hmem
        exact ⟨congrArg Slot.role heq, hact, congrArg Slot.tid heq⟩
  · next act hne hact =>
      right
      have heq := List.mem_singleton.mp hmem
      refine ⟨act, hact, ?_, congrArg Slot.tid heq⟩
      rw [if_neg hne]
      exact congrArg Slot.role heq
  · cases hmem

end Frame

end HftProj.Testkit.SigPush
