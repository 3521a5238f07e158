import HftProj.Testkit.Reanchoring

/-!
# What a batch leaves

The carry behind a batch shows the register file behind its messages, and its columns and
counts are the sum of what the messages resolve to.
-/

namespace HftProj.Testkit.SigPush

open HftProj.Lib
open OrderScan

namespace Frame

variable {fr : Frame}

/-! ## The last rows -/

theorem lasts_keys (lo : ℕ) (bs : List (ℕ × List Slot)) :
    (lasts lo bs).map Prod.fst = bs.map Prod.fst := by
  induction bs generalizing lo with
  | nil => rfl
  | cons b bs ih => exact congrArg _ (ih _)

/-- The last row of a bucket is the row of its last slot. -/
theorem mem_lasts {lo : ℕ} {bs : List (ℕ × List Slot)} {b : ℕ × ℕ}
    (hsome : ∀ b ∈ bs, b.2 ≠ []) (h : b ∈ lasts lo bs) :
    ∃ ss, (b.1, ss) ∈ bs ∧ lo ≤ b.2 ∧
      (bs.flatMap Prod.snd)[b.2 - lo]? = ss.getLast? := by
  induction bs generalizing lo with
  | nil => cases h
  | cons bucket bs ih =>
      obtain ⟨id, ss⟩ := bucket
      have hne : ss ≠ [] := hsome _ List.mem_cons_self
      have hpos : 0 < ss.length := List.length_pos_of_ne_nil hne
      rw [List.flatMap_cons]
      rcases List.mem_cons.mp h with rfl | hmem
      · refine ⟨ss, List.mem_cons_self, ?_, ?_⟩
        · show lo ≤ lo + ss.length - 1
          omega
        · show (ss ++ _)[lo + ss.length - 1 - lo]? = _
          rw [List.getElem?_append_left (by omega), List.getLast?_eq_getElem?]
          congr 1
          omega
      · obtain ⟨ss', hss, hle, hlast⟩ :=
          ih (fun b hb => hsome b (List.mem_cons_of_mem _ hb))
            (show b ∈ lasts (lo + ss.length) bs from hmem)
        refine ⟨ss', List.mem_cons_of_mem _ hss, by omega, ?_⟩
        show (ss ++ _)[b.2 - lo]? = _
        rw [List.getElem?_append_right (by omega), ← hlast]
        congr 1
        omega

/-- The last row of a bucket leaves the register that the batch leaves. -/
theorem last_row {b : ℕ × ℕ} (h : b ∈ lasts 0 (buckets fr.batch)) :
    b.2 < fr.spec.length ∧ fr.aft (fr.slot b.2) = fr.file fr.batch.length b.1 := by
  have hsorted := @sorted_buckets fr
  obtain ⟨ss, hss, -, hlast⟩ := mem_lasts (fun b hb => (hsorted.thread b hb).2) h
  obtain ⟨hthread, hsome⟩ := hsorted.thread _ hss
  rw [Nat.sub_zero, ← spec_eq, List.getLast?_eq_some_getLast hsome] at hlast
  obtain ⟨hlt, hrow⟩ := List.getElem?_eq_some_iff.mp hlast
  refine ⟨hlt, ?_⟩
  have hrun := (@slotsTo_run fr _ (Nat.le_refl _)).2
  have hfold : ∀ (ss : List Slot) (r : Option Register) (hne : ss ≠ []),
      ss.foldl (fun _ s => fr.aft s) r = fr.aft (ss.getLast hne) := by
    intro ss
    induction ss with
    | nil => exact fun _ hne => absurd rfl hne
    | cons s ss ih =>
        intro r hne
        cases ss with
        | nil => rfl
        | cons s' ss => exact ih r (List.cons_ne_nil _ _)
  have hthread' : ss = Threads.thread Slot.tid b.1 (fr.slotsTo fr.batch.length) := hthread
  rw [hrun, Threads.run_eq, ← hthread', hfold ss _ hsome, slot_eq hlt, hrow]

/-! ## The carry -/

variable {rows : ℕ → RowOp} {rewritten : ℕ → Bool}

/-- The register behind a row of the final round. -/
theorem regAt_register (hent : fr.Entered) (hshape : Shaped fr rows rewritten)
    (hviol : fr.violations rows rewritten = []) {ri : ℕ} (hri : ri < fr.spec.length)
    (hbounded : ∀ r, fr.aft (fr.slot ri) = some r → r.rem < 2 ^ 32) :
    (fr.regAt rows ri).register = fr.aft (fr.slot ri) ∧
      ((fr.regAt rows ri).dead = false → (fr.regAt rows ri).rho.toNat < 2 ^ 32) := by
  have hkeeps := keeps_exact hent hviol
  have hcell := (cells hent hshape (born_uEnt hent hshape) hkeeps.1 hkeeps.2 ri hri
    (time_lt hri)).2
  have hscan : fr.scanned rows ri = rowopCompose (prefixAt rows ri) (rows ri) :=
    orderScan_eq _ _ ri hri
  rw [← hscan] at hcell
  cases haft : fr.aft (fr.slot ri) with
  | none =>
      rw [haft] at hcell
      have hdead : (fr.regAt rows ri).dead = true := by
        rw [regAt]
        rcases hcell with hdead | ⟨hnone, -⟩
        · split
          · rfl
          · exact hdead
        · rw [hnone]
      rw [Reg.register, if_pos hdead, hdead]
      exact ⟨rfl, fun hno => by cases hno⟩
  | some r =>
      rw [haft] at hcell
      obtain ⟨e, he, hdead, ⟨hask, hpx⟩, hrho⟩ := hcell
      have hreg : fr.regAt rows ri = ⟨(fr.scanned rows ri).apply e 0,
          (fr.scanned rows ri).apply e 1, (fr.scanned rows ri).apply e 2, false⟩ := by
        rw [regAt]
        simp only [he, hdead]
      have hrem : (BitVec.ofNat 64 r.rem).toNat = r.rem := by
        rw [BitVec.toNat_ofNat]
        have := hbounded r haft
        omega
      rw [hreg, Reg.register, if_neg Bool.false_ne_true]
      simp only [hrho, hrem, hpx]
      refine ⟨?_, fun _ => hbounded r haft⟩
      have hside : decide ((fr.scanned rows ri).apply e 0 = 0) = r.ask := by
        cases hr : r.ask with
        | false => exact decide_eq_false (by rw [hask, hr]; exact Bool.false_ne_true)
        | true => exact decide_eq_true (hask.mpr hr)
      rw [hside]

/-- The carry shows the register file behind the batch. -/
theorem carried_entry (hent : fr.Entered) (hshape : Shaped fr rows rewritten)
    (hviol : fr.violations rows rewritten = []) (id : ℕ) :
    (fr.carried rows id).bind Reg.register = fr.file fr.batch.length id ∧
      ∀ r, fr.carried rows id = some r → r.dead = false → r.rho.toNat < 2 ^ 32 := by
  have hrun : fr.carried rows = Threads.run Prod.fst (fun b => some (fr.regAt rows b.2)) fr.carry
      (lasts 0 (buckets fr.batch)) := rfl
  have hsorted := @sorted_buckets fr
  have hkeys := lasts_keys 0 (buckets fr.batch)
  rw [hrun]
  by_cases hmem : id ∈ (buckets fr.batch).map Prod.fst
  · rw [← hkeys] at hmem
    obtain ⟨b, hb, rfl⟩ := List.mem_map.mp hmem
    obtain ⟨hlt, haft⟩ := last_row hb
    obtain ⟨hreg, hrho⟩ := regAt_register hent hshape hviol hlt
      (haft ▸ bounded_file hent fr.batch.length b.1)
    rw [Threads.run_of_mem (hkeys ▸ hsorted.nodup) hb, Option.bind_some, hreg, haft]
    refine ⟨rfl, fun r hr hdead => ?_⟩
    cases hr
    exact hrho hdead
  · have hslots : id ∉ (fr.slotsTo fr.batch.length).map Slot.tid := by
      intro hslot
      obtain ⟨s, hs, rfl⟩ := List.mem_map.mp hslot
      exact hmem (hsorted.all s hs)
    rw [← hkeys] at hmem
    rw [Threads.run_of_notMem hmem, (slotsTo_run (Nat.le_refl _)).2, Threads.run_of_notMem hslots]
    exact ⟨rfl, hent.rho_lt id⟩

end Frame

end HftProj.Testkit.SigPush
