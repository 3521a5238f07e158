import HftProj.Testkit.ResLog

/-!
# Scripts cover the lane's share

The tiling check compares the ends of the segments with the entry and the exit of the lane. It
passes exactly if the segments cover the lane's own positions between the two boundaries, and
then they do so again wherever the phase is the same.
-/

namespace HftProj.Testkit.ScriptCoverage

open HftProj.Lib HftProj.Lib.Tiling HftProj.Lib.RoundRobin
open HftProj.Testkit.RxSubmit HftProj.Testkit.LaneGrid

variable {l n p q x k a b e : ℕ}

/-- A segment inside one of the lane's chunks. -/
def Inside (l n x k : ℕ) : Prop := 0 < k ∧ OwnSpan l n x ∧ x % chunk + k ≤ chunk

theorem Inside.div_eq (h : Inside l n x k) (hlo : x ≤ p) (hhi : p < x + k) :
    p / chunk = x / chunk := by
  obtain ⟨-, -, hfit⟩ := h
  rw [chunk] at hfit ⊢
  omega

theorem Inside.solid (h : Inside l n x k) : Solid (OwnSpan l n) (x, k) :=
  ⟨h.1, fun _ hlo hhi => h.2.1.of_div (h.div_eq hlo hhi)⟩

/-! ## Entry and exit as neighbours -/

theorem laneSpanEntry_le_add (hl : l < n) (p : ℕ) : laneSpanEntry p l n ≤ p + (n - 1) * chunk := by
  by_cases hown : OwnSpan l n p
  · rw [laneSpanEntry_own hown]
    exact Nat.le_add_right _ _
  · have hlt := advance_lt hl (p / chunk)
    rw [laneSpanEntry_foreign hown, Nat.add_mul]
    exact Nat.add_le_add (Nat.div_mul_le_self p chunk) (Nat.mul_le_mul_right chunk (by omega))

/-- The entry is the own position with no own position skipped. -/
theorem same_iff_entry (hl : l < n) (hq : OwnSpan l n q) :
    Same (OwnSpan l n) p q ↔ laneSpanEntry p l n = q := by
  obtain ⟨⟨hown, hle⟩, hleast⟩ := laneSpanEntry_isLeast hl p
  constructor
  · intro h
    apply Nat.le_antisymm
    · exact hleast ⟨hq, h.le hq⟩
    · exact Nat.le_of_not_lt fun hlt => Nat.not_lt_of_le hle ((h _ hown).mpr hlt)
  · rintro rfl
    refine Same.of_between (fun r hlo hhi hr => ?_) hle
    exact Nat.not_lt_of_le (hleast ⟨hr, hlo⟩) hhi

/-- A lane does not own two positions less than a turn apart in different chunks. -/
theorem turn_le (hx : OwnSpan l n x) (hq : OwnSpan l n q) (hlt : x / chunk < q / chunk) :
    x / chunk + n ≤ q / chunk :=
  add_turn_le hlt (Eq.trans hx hq.symm)

/-- Inside a chunk the lane goes on at the end of a segment. -/
theorem entry_within (h : Inside l n x k) (hin : x % chunk + k < chunk) :
    laneSpanEntry (x + k) l n = x + k := by
  apply laneSpanEntry_own
  apply h.2.1.of_div
  rw [chunk] at hin ⊢
  omega

/-- From the end of a chunk it goes on a foreign gap later. -/
theorem entry_behind (hl : l < n) (h : Inside l n x k) (hin : x % chunk + k = chunk) :
    laneSpanEntry (x + k) l n = x + k + (n - 1) * chunk := by
  have hdiv : (x + k) / chunk = x / chunk + 1 := by
    rw [chunk] at hin ⊢
    omega
  have hmul : (x / chunk + 1) * chunk = x + k := by
    rw [chunk] at hin ⊢
    omega
  by_cases hown : OwnSpan l n (x + k)
  · have hturn := turn_le h.2.1 hown (by rw [hdiv]; exact Nat.lt_succ_self _)
    have hone : n - 1 = 0 := by
      rw [hdiv] at hturn
      exact Nat.sub_eq_zero_of_le (Nat.le_of_add_le_add_left hturn)
    rw [laneSpanEntry_own hown, hone, Nat.zero_mul, Nat.add_zero]
  · have hlt := advance_lt hl (x / chunk + 1)
    have hmod := add_advance_mod hl (x / chunk + 1)
    have hturn : x / chunk + n ≤ x / chunk + 1 + advance n l (x / chunk + 1) :=
      add_turn_le (Nat.lt_of_lt_of_le (Nat.lt_succ_self _) (Nat.le_add_right _ _))
        (Eq.trans h.2.1 hmod.symm)
    have hadv : advance n l (x / chunk + 1) = n - 1 := by
      rw [Nat.add_assoc] at hturn
      have := Nat.le_of_add_le_add_left hturn
      omega
    rw [laneSpanEntry_foreign hown, hdiv, hadv, Nat.add_mul, hmul]

/-- A segment may follow another if it starts at its end or a foreign gap later. -/
theorem next_iff (hl : l < n) (h : Inside l n x k) (hq : OwnSpan l n q) :
    (q = x + k ∨ q = x + k + (n - 1) * chunk) ↔ Same (OwnSpan l n) (x + k) q := by
  rw [same_iff_entry hl hq]
  obtain hin | hin := Nat.lt_or_eq_of_le h.2.2
  · rw [entry_within h hin]
    constructor
    · rintro (rfl | rfl)
      · rfl
      · obtain hone | hmany : n - 1 = 0 ∨ 0 < n - 1 := Nat.eq_zero_or_pos _
        · rw [hone, Nat.zero_mul, Nat.add_zero]
        · have hdiv : (x + k + (n - 1) * chunk) / chunk = x / chunk + (n - 1) := by
            rw [Nat.add_mul_div_right _ _ chunk_pos]
            congr 1
            rw [chunk] at hin ⊢
            omega
          have hturn := turn_le h.2.1 hq (by rw [hdiv]; exact Nat.lt_add_of_pos_right hmany)
          rw [hdiv] at hturn
          have := Nat.le_of_add_le_add_left hturn
          omega
    · exact fun heq => Or.inl heq.symm
  · rw [entry_behind hl h hin]
    constructor
    · rintro (rfl | rfl)
      · have hentry := entry_behind hl h hin
        rw [laneSpanEntry_own hq] at hentry
        exact hentry.symm
      · rfl
    · exact fun heq => Or.inr heq.symm

/-- The exit is the end of a segment with no own position between it and the boundary. -/
theorem same_iff_exit (hl : l < n) (he : OwnSpan l n (e - 1)) (hpos : 0 < e)
    (hex : ∃ q, OwnSpan l n q ∧ q < b) :
    Same (OwnSpan l n) e b ↔ laneSpanExit b l n = e := by
  obtain ⟨q, ⟨⟨hown, hlt⟩, hgreatest⟩, hexit⟩ := laneSpanExit_isGreatest hl hex
  rw [hexit]
  constructor
  · intro h
    have hle : e - 1 ≤ q := hgreatest ⟨he, (h _ he).mp (Nat.sub_one_lt_of_lt hpos)⟩
    have hge : q < e := (h q hown).mpr hlt
    omega
  · rintro rfl r hr
    constructor
    · intro hre
      omega
    · exact fun hrb => Nat.lt_succ_of_le (hgreatest ⟨hr, hrb⟩)

theorem same_le_add (hl : l < n) (h : Same (OwnSpan l n) p q) : q ≤ p + (n - 1) * chunk := by
  obtain ⟨⟨hown, hle⟩, -⟩ := laneSpanEntry_isLeast hl p
  have hge : q ≤ laneSpanEntry p l n :=
    Nat.le_of_not_lt fun hlt => Nat.not_lt_of_le hle ((h _ hown).mpr hlt)
  exact hge.trans (laneSpanEntry_le_add hl p)

/-! ## The tiling check -/

/-- The segments tile the lane's own positions from `lo` on up to `hi`. -/
abbrev Tiled (l n hi lo : ℕ) : List (ℕ × ℕ) → Prop := Covers (OwnSpan l n) (Inside l n) hi lo

/-- A script played from a boundary. -/
def shifted (a : ℕ) (ss : List ResLogSeg) : List (ℕ × ℕ) := ss.map fun s => (a + s.rel, s.k)

theorem mem_shifted {ss : List ResLogSeg} {P : ℕ → ℕ → Prop}
    (h : ∀ t ∈ shifted a ss, P t.1 t.2) {s : ResLogSeg} (hs : s ∈ ss) : P (a + s.rel) s.k :=
  h _ (List.mem_map.mpr ⟨s, hs, rfl⟩)

variable {ss : List ResLogSeg} {f : ℕ}

open ResLog

theorem tileEnd_cons {s : ResLogSeg} (h : s.rel = e ∨ s.rel = e + p) :
    tileEnd p e (s :: ss) = tileEnd p (s.rel + s.k) ss := by
  rw [tileEnd, if_neg]
  rintro ⟨hfirst, hsecond⟩
  exact h.elim hfirst hsecond

theorem tileEnd_cons_none {s : ResLogSeg} (h : ¬ (s.rel = e ∨ s.rel = e + p)) :
    tileEnd p e (s :: ss) = none := by
  rw [tileEnd, if_pos]
  exact not_or.mp h

/-- Behind a segment the walk of the check tiles up to where it ends. -/
theorem tileEnd_iff (hl : l < n) (hx : Inside l n x k) (he : a + e = x + k)
    (hin : ∀ t ∈ shifted a ss, Inside l n t.1 t.2) :
    (∃ f, tileEnd ((n - 1) * chunk) e ss = some f ∧ Same (OwnSpan l n) (a + f) b) ↔
      Tiled l n b (x + k) (shifted a ss) := by
  induction ss generalizing x k e with
  | nil =>
      constructor
      · rintro ⟨f, hf, hsame⟩
        obtain rfl := Option.some.inj hf
        exact he ▸ hsame
      · exact fun h => ⟨e, rfl, he ▸ h⟩
  | cons s rest ih =>
      have hs := mem_shifted hin List.mem_cons_self
      have hrest : ∀ t ∈ shifted a rest, Inside l n t.1 t.2 :=
        fun t ht => hin t (List.mem_cons_of_mem _ ht)
      have hnext : (s.rel = e ∨ s.rel = e + (n - 1) * chunk) ↔
          Same (OwnSpan l n) (x + k) (a + s.rel) := by
        rw [← next_iff hl hx hs.2.1]
        omega
      have hstop : a + (s.rel + s.k) = a + s.rel + s.k := (Nat.add_assoc _ _ _).symm
      by_cases hadv : s.rel = e ∨ s.rel = e + (n - 1) * chunk
      · rw [tileEnd_cons hadv, ih hs hstop hrest]
        exact ⟨fun h => ⟨hnext.mp hadv, hs.2.1, hs, h⟩, fun h => h.2.2.2⟩
      · rw [tileEnd_cons_none hadv]
        constructor
        · rintro ⟨f, hf, -⟩
          cases hf
        · exact fun h => absurd (hnext.mpr h.1) hadv

/-- The walk ends at the end of a segment. -/
theorem tileEnd_last {gap : ℕ} (hx : Inside l n x k) (he : a + e = x + k)
    (hin : ∀ t ∈ shifted a ss, Inside l n t.1 t.2) (hf : tileEnd gap e ss = some f) :
    e ≤ f ∧ OwnSpan l n (a + f - 1) := by
  induction ss generalizing x k e with
  | nil =>
      obtain rfl := Option.some.inj hf
      exact ⟨Nat.le_refl _, he ▸ hx.solid.last⟩
  | cons s rest ih =>
      have hs := mem_shifted hin List.mem_cons_self
      by_cases hadv : s.rel = e ∨ s.rel = e + gap
      · rw [tileEnd_cons hadv] at hf
        obtain ⟨hle, hlast⟩ := ih hs (Nat.add_assoc _ _ _).symm
          (fun t ht => hin t (List.mem_cons_of_mem _ ht)) hf
        exact ⟨by omega, hlast⟩
      · rw [tileEnd_cons_none hadv] at hf
        cases hf

/-- A walk over `m` segments goes on for `m` turns at most. -/
theorem tileEnd_le {gap : ℕ} (hk : ∀ s ∈ ss, s.k ≤ chunk) (hf : tileEnd gap e ss = some f) :
    f ≤ e + ss.length * (gap + chunk) := by
  induction ss generalizing e with
  | nil =>
      obtain rfl := Option.some.inj hf
      exact Nat.le_add_right _ _
  | cons s rest ih =>
      by_cases hadv : s.rel = e ∨ s.rel = e + gap
      · rw [tileEnd_cons hadv] at hf
        have hle := ih (fun t ht => hk t (List.mem_cons_of_mem _ ht)) hf
        have := hk s List.mem_cons_self
        rw [List.length_cons, Nat.succ_mul]
        omega
      · rw [tileEnd_cons_none hadv] at hf
        cases hf

theorem Tiled.le {segs : List (ℕ × ℕ)} (hl : l < n) (h : Tiled l n b a segs) :
    b ≤ a + segs.length * (n * chunk) + (n - 1) * chunk := by
  induction segs generalizing a with
  | nil =>
      have := same_le_add hl h
      rw [List.length_nil, Nat.zero_mul]
      omega
  | cons s rest ih =>
      obtain ⟨hsame, -, hs, hrest⟩ := h
      have hstart := same_le_add hl hsame
      have hle := ih hrest
      have hturn : n * chunk = (n - 1) * chunk + chunk := by
        rw [← Nat.succ_mul, Nat.succ_eq_add_one, Nat.sub_add_cancel (Nat.zero_lt_of_lt hl)]
      have := hs.2.2
      rw [List.length_cons, Nat.succ_mul]
      omega

variable {log : ResLog}

/-- Where the offsets are exact, the check passes on the scripts that tile the pass. -/
theorem tiles_iff_shifted (hl : l < n) (hlane : log.laneIdx = l) (hlanes : log.nLanes = n)
    (hcur : log.curRb = some a) (hss : log.segs.drop (log.phaseLo log.phase) = ss)
    (hin : ∀ t ∈ shifted a ss, Inside l n t.1 t.2) (hlt : ∀ t ∈ shifted a ss, t.1 < b) :
    log.tiles b = true ↔ ss ≠ [] ∧ Tiled l n b a (shifted a ss) := by
  cases ss with
  | nil =>
      rw [tiles, hss]
      exact ⟨fun h => absurd h Bool.false_ne_true, fun h => absurd rfl h.1⟩
  | cons s rest =>
      have hs := mem_shifted hin List.mem_cons_self
      have hrest : ∀ t ∈ shifted a rest, Inside l n t.1 t.2 :=
        fun t ht => hin t (List.mem_cons_of_mem _ ht)
      have hex : ∃ q, OwnSpan l n q ∧ q < b := ⟨a + s.rel, hs.2.1, hlt _ List.mem_cons_self⟩
      have hstop : a + (s.rel + s.k) = a + s.rel + s.k := (Nat.add_assoc _ _ _).symm
      have hle := laneSpanEntry_le hl a
      have hhead : s.rel = LaneGrid.wrappingSub (laneSpanEntry a l n) a ↔
          Same (OwnSpan l n) a (a + s.rel) := by
        rw [same_iff_entry hl hs.2.1, LaneGrid.wrappingSub, if_pos hle]
        omega
      have hwalk : tileEnd ((n - 1) * chunk) s.rel (s :: rest) =
          tileEnd ((n - 1) * chunk) (s.rel + s.k) rest := tileEnd_cons (Or.inl rfl)
      have htail : tileEnd ((n - 1) * chunk) (s.rel + s.k) rest = some (laneSpanExit b l n - a) ↔
          Tiled l n b (a + s.rel + s.k) (shifted a rest) := by
        rw [← tileEnd_iff hl hs hstop hrest]
        constructor
        · intro hf
          obtain ⟨hge, hlast⟩ := tileEnd_last hs hstop hrest hf
          have hpos := hs.1
          refine ⟨_, hf, ?_⟩
          rw [same_iff_exit hl hlast (by omega) hex]
          omega
        · rintro ⟨f, hf, hsame⟩
          obtain ⟨hge, hlast⟩ := tileEnd_last hs hstop hrest hf
          have hpos := hs.1
          rw [same_iff_exit hl hlast (by omega) hex] at hsame
          rw [hf, hsame, Nat.add_sub_cancel_left]
      rw [tiles, hss, hcur, hlane, hlanes]
      dsimp only [Option.getD_some]
      rw [hwalk]
      by_cases hfirst : s.rel = LaneGrid.wrappingSub (laneSpanEntry a l n) a
      · rw [if_neg (not_not_intro hfirst), beq_iff_eq, htail]
        exact ⟨fun h => ⟨List.cons_ne_nil _ _, hhead.mp hfirst, hs.2.1, hs, h⟩, fun h => h.2.2.2.2⟩
      · rw [if_pos hfirst]
        exact ⟨fun h => absurd h Bool.false_ne_true, fun h => absurd (hhead.mpr h.2.1) hfirst⟩

/-- A script that passes ends a bounded number of turns behind the boundary. -/
theorem exit_le_of_tiles (hl : l < n) (hlane : log.laneIdx = l) (hlanes : log.nLanes = n)
    (hcur : log.curRb = some a) (hss : log.segs.drop (log.phaseLo log.phase) = ss)
    (hk : ∀ s ∈ ss, s.k ≤ chunk) (h : log.tiles b = true) :
    laneSpanExit b l n ≤ a + ((n - 1) * chunk + ss.length * (n * chunk)) := by
  have hturn : (n - 1) * chunk + chunk = n * chunk := by
    rw [← Nat.succ_mul, Nat.succ_eq_add_one, Nat.sub_add_cancel (Nat.zero_lt_of_lt hl)]
  rw [tiles, hss, hcur, hlane, hlanes] at h
  dsimp only [Option.getD_some] at h
  cases ss with
  | nil => exact absurd h Bool.false_ne_true
  | cons s rest =>
      dsimp only at h
      by_cases hfirst : s.rel = LaneGrid.wrappingSub (laneSpanEntry a l n) a
      · rw [if_neg (not_not_intro hfirst), beq_iff_eq] at h
        have hle := tileEnd_le hk h
        have hentry := laneSpanEntry_le_add hl a
        rw [LaneGrid.wrappingSub, if_pos (laneSpanEntry_le hl a)] at hfirst
        rw [hturn] at hle
        omega
      · rw [if_pos hfirst] at h
        exact absurd h Bool.false_ne_true

theorem le_exit_add (hl : l < n) (hex : ∃ q, OwnSpan l n q ∧ q < b) :
    b ≤ laneSpanExit b l n + (n - 1) * chunk := by
  obtain ⟨q, ⟨⟨hown, hlt⟩, -⟩, hexit⟩ := laneSpanExit_isGreatest hl hex
  have hsame := (same_iff_exit (e := q + 1) hl hown (Nat.succ_pos q) hex).mpr hexit
  rw [hexit]
  exact same_le_add hl hsame

variable {pushes : List (ℕ × ℕ)}

/-- What the log keeps of the segments of a pass: offsets of 32 bits, and lengths. -/
def kept (a : ℕ) (pushes : List (ℕ × ℕ)) : List (ℕ × ℕ) :=
  pushes.map fun t => (LaneGrid.wrappingSub t.1 a % 2 ^ 32, t.2)

theorem shifted_kept (hkept : (ss.map fun s => (s.rel, s.k)) = kept a pushes)
    (hrange : ∀ t ∈ pushes, a ≤ t.1 ∧ t.1 < a + 2 ^ 32) : shifted a ss = pushes := by
  calc
    shifted a ss = (ss.map fun s => (s.rel, s.k)).map fun t => (a + t.1, t.2) := by
      rw [List.map_map]
      rfl
    _ = pushes.map fun t => (a + LaneGrid.wrappingSub t.1 a % 2 ^ 32, t.2) := by
      rw [hkept, kept, List.map_map]
      rfl
    _ = pushes.map id := by
      apply List.map_congr_left
      intro t ht
      obtain ⟨hle, hlt⟩ := hrange t ht
      rw [LaneGrid.wrappingSub, if_pos hle, Nat.mod_eq_of_lt (by omega), Nat.add_sub_cancel' hle]
      rfl
    _ = pushes := List.map_id pushes

/-- A script that fits in the log tiles a short pass only. -/
theorem Tiled.lt_add (hl : l < n) (hn : n * chunk ≤ reslogPhases)
    (hlen : pushes.length ≤ reslogSegs) (h : Tiled l n b a pushes) : b < a + 2 ^ 32 := by
  have hturns : pushes.length * (n * chunk) ≤ reslogSegs * reslogPhases := Nat.mul_le_mul hlen hn
  have hgap : (n - 1) * chunk ≤ reslogPhases :=
    (Nat.mul_le_mul_right chunk (Nat.sub_le n 1)).trans hn
  have hle := h.le hl
  rw [reslogSegs, reslogPhases] at hturns
  rw [reslogPhases] at hgap
  omega

theorem length_kept (hkept : (ss.map fun s => (s.rel, s.k)) = kept a pushes) :
    ss.length = pushes.length := by
  have := congrArg List.length hkept
  simpa [kept] using this

/-- Played from its boundary, a kept script that tiles its pass is the segments pushed. -/
theorem shifted_of_tiled (hl : l < n) (hn : n * chunk ≤ reslogPhases)
    (hlen : ss.length ≤ reslogSegs) (hkept : (ss.map fun s => (s.rel, s.k)) = kept a pushes)
    (hrange : ∀ t ∈ pushes, a ≤ t.1 ∧ t.1 < b) (h : Tiled l n b a pushes) :
    shifted a ss = pushes := by
  rw [length_kept hkept] at hlen
  exact shifted_kept hkept fun t ht =>
    ⟨(hrange t ht).1, Nat.lt_trans (hrange t ht).2 (h.lt_add hl hn hlen)⟩

/-- The check passes exactly on the scripts that tile the pass: the log is too short for the
offsets of such a script to be cut. -/
theorem tiles_iff (hl : l < n) (hn : n * chunk ≤ reslogPhases) (hlane : log.laneIdx = l)
    (hlanes : log.nLanes = n) (hcur : log.curRb = some a)
    (hss : log.segs.drop (log.phaseLo log.phase) = ss) (hlen : ss.length ≤ reslogSegs)
    (hkept : (ss.map fun s => (s.rel, s.k)) = kept a pushes)
    (hin : ∀ t ∈ pushes, Inside l n t.1 t.2) (hrange : ∀ t ∈ pushes, a ≤ t.1 ∧ t.1 < b) :
    log.tiles b = true ↔ pushes ≠ [] ∧ Tiled l n b a pushes := by
  have hcount := length_kept hkept
  have hturns : ss.length * (n * chunk) ≤ reslogSegs * reslogPhases := Nat.mul_le_mul hlen hn
  have hgap : (n - 1) * chunk ≤ reslogPhases :=
    (Nat.mul_le_mul_right chunk (Nat.sub_le n 1)).trans hn
  rw [reslogSegs, reslogPhases] at hturns
  rw [reslogPhases] at hgap
  obtain hnear | hfar := Nat.lt_or_ge b (a + 2 ^ 32)
  · have hshift := shifted_kept hkept fun t ht =>
      ⟨(hrange t ht).1, Nat.lt_trans (hrange t ht).2 hnear⟩
    have hnil : ss ≠ [] ↔ pushes ≠ [] := by
      rw [← List.length_pos_iff, ← List.length_pos_iff, hcount]
    rw [tiles_iff_shifted hl hlane hlanes hcur hss (hshift ▸ hin)
      (hshift ▸ fun t ht => (hrange t ht).2), hshift, hnil]
  · constructor
    · intro htiles
      have hne : pushes ≠ [] := by
        rintro rfl
        rw [kept, List.map_nil, List.map_eq_nil_iff] at hkept
        rw [tiles, hss, hkept] at htiles
        exact Bool.false_ne_true htiles
      obtain ⟨t, ht⟩ := List.exists_mem_of_ne_nil pushes hne
      have hk : ∀ s ∈ ss, s.k ≤ chunk := by
        intro s hs
        have hmem : (s.rel, s.k) ∈ kept a pushes := hkept ▸ List.mem_map_of_mem hs
        obtain ⟨t, ht, heq⟩ := List.mem_map.mp hmem
        have hfit := (hin t ht).2.2
        rw [(Prod.mk.inj heq).2] at hfit
        omega
      have hexit := exit_le_of_tiles hl hlane hlanes hcur hss hk htiles
      have hle := le_exit_add hl ⟨t.1, (hin t ht).2.1, (hrange t ht).2⟩
      omega
    · rintro ⟨-, htiled⟩
      have hlt := htiled.lt_add hl hn (hcount ▸ hlen)
      omega

end HftProj.Testkit.ScriptCoverage
