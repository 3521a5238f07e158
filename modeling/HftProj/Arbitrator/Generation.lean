import HftProj.Arbitrator.Visits
import HftProj.Protocol.Encode

/-!
# Generations and the event grammar

`Follows pre c` says what a sink call `c` must look like after the calls `pre`: which
generation it carries and whether a gap may open or close there. Every history of a
run in range is lawful in this sense, and the pairing of gap events is read off it.
-/

namespace HftProj.Arbitrator

open HftProj.Lib HftProj.Protocol HftProj.Protocol.Moldudp64 HftProj.Protocol.Packet

namespace SinkCall

def isGapOpened : SinkCall → Bool
  | .onEvent (.gapOpened _ _ _) => true
  | _ => false

def isReAnchored : SinkCall → Bool
  | .onEvent (.reAnchored _ _) => true
  | _ => false

/-- The events that start a new generation. -/
def opensEra (c : SinkCall) : Bool := c.isGapOpened || c.isBoundary

/-- The events that close an open gap. -/
def closesGap (c : SinkCall) : Bool := c.isReAnchored || c.isBoundary

end SinkCall

/-- The number of generations started so far. -/
def eras (calls : List SinkCall) : ℕ := calls.countP SinkCall.opensEra

def gapAfter (gap : Option (Option ℕ × ℕ)) : SinkCall → Option (Option ℕ × ℕ)
  | .onEvent (.gapOpened _ ahead gen) => some (ahead, gen)
  | .onEvent (.reAnchored _ _) => none
  | .onEvent (.sessionBoundary _ _ _) => none
  | _ => gap

/-- The `ahead` and the generation of the gap left open by the calls, if any. -/
def openGap (calls : List SinkCall) : Option (Option ℕ × ℕ) := calls.foldl gapAfter none

/-- What a call must look like after the calls `pre`. -/
def Follows (pre : List SinkCall) : SinkCall → Prop
  | .onMsg proof _ _ => proof.gen = eras pre % 2 ^ 64
  | .onSpan proof _ _ _ _ => proof.gen = eras pre % 2 ^ 64
  | .onEvent (.gapOpened _ _ gen) => openGap pre = none ∧ gen = (eras pre + 1) % 2 ^ 64
  | .onEvent (.reAnchored gen at_) => ∃ ahead, openGap pre = some (some ahead, gen) ∧ ahead ≤ at_
  | .onEvent (.sessionBoundary _ _ gen) => gen = (eras pre + 1) % 2 ^ 64
  | .onEvent (.endOfSession _ _ _) => True
  | .onEvent (.sessionDead _ _) => True

/-- Every call follows those before it. -/
def Lawful (calls : List SinkCall) : Prop :=
  ∀ pre c post, calls = pre ++ c :: post → Follows pre c

theorem lawful_nil : Lawful [] := by
  intro pre c post h
  simp at h

theorem Lawful.snoc {calls : List SinkCall} (h : Lawful calls) {c : SinkCall}
    (hc : Follows calls c) : Lawful (calls ++ [c]) := by
  intro pre d post he
  rcases List.eq_nil_or_concat post with rfl | ⟨post', e, rfl⟩
  · obtain ⟨rfl, hd⟩ := List.append_inj' he rfl
    simp only [List.cons.injEq, and_true] at hd
    exact hd ▸ hc
  · have he' : calls ++ [c] = (pre ++ d :: post') ++ [e] := by simpa using he
    obtain ⟨rfl, -⟩ := List.append_inj' he' rfl
    exact h pre d post' rfl

@[simp] theorem eras_append (xs ys : List SinkCall) : eras (xs ++ ys) = eras xs + eras ys :=
  List.countP_append

theorem openGap_append (xs ys : List SinkCall) :
    openGap (xs ++ ys) = ys.foldl gapAfter (openGap xs) := List.foldl_append

/-! ## Pairing -/

theorem gapAfter_of_neutral {c : SinkCall} (h₁ : c.isGapOpened = false)
    (h₂ : c.closesGap = false) (gap : Option (Option ℕ × ℕ)) : gapAfter gap c = gap := by
  cases c with
  | onMsg => rfl
  | onSpan => rfl
  | onEvent ev =>
      cases ev with
      | gapOpened => cases h₁
      | reAnchored => cases h₂
      | sessionBoundary => cases h₂
      | endOfSession => rfl
      | sessionDead => rfl

theorem gapAfter_of_closes {c : SinkCall} (h : c.closesGap = true)
    (gap : Option (Option ℕ × ℕ)) : gapAfter gap c = none := by
  cases c with
  | onMsg => cases h
  | onSpan => cases h
  | onEvent ev =>
      cases ev with
      | gapOpened => cases h
      | reAnchored => rfl
      | sessionBoundary => rfl
      | endOfSession => cases h
      | sessionDead => cases h

/-- Calls that neither open nor close a gap leave it as it is. -/
theorem foldl_gapAfter_of_neutral {calls : List SinkCall} {gap : Option (Option ℕ × ℕ)}
    (h : ∀ c ∈ calls, c.isGapOpened = false ∧ c.closesGap = false) :
    calls.foldl gapAfter gap = gap := by
  induction calls generalizing gap with
  | nil => rfl
  | cons c calls ih =>
      obtain ⟨h₁, h₂⟩ := h c (by simp)
      rw [List.foldl_cons, gapAfter_of_neutral h₁ h₂]
      exact ih fun d hd => h d (List.mem_cons_of_mem _ hd)

/-- Without a new gap, a closed one stays closed. -/
theorem foldl_gapAfter_none {calls : List SinkCall}
    (h : ∀ c ∈ calls, c.isGapOpened = false) : calls.foldl gapAfter none = none := by
  induction calls with
  | nil => rfl
  | cons c calls ih =>
      have hc : gapAfter none c = none := by
        cases hcl : c.closesGap with
        | true => exact gapAfter_of_closes hcl none
        | false => exact gapAfter_of_neutral (h c (by simp)) hcl none
      rw [List.foldl_cons, hc]
      exact ih fun d hd => h d (List.mem_cons_of_mem _ hd)

theorem exists_first {p : SinkCall → Bool} {calls : List SinkCall}
    (h : ∃ c ∈ calls, p c = true) :
    ∃ xs c ys, calls = xs ++ c :: ys ∧ (∀ x ∈ xs, p x = false) ∧ p c = true := by
  induction calls with
  | nil => simp at h
  | cons d calls ih =>
      by_cases hd : p d = true
      · exact ⟨[], d, calls, rfl, by simp, hd⟩
      · obtain ⟨c, hc, hp⟩ := h
        have hrest : ∃ c ∈ calls, p c = true := by
          rcases List.mem_cons.mp hc with rfl | hc
          · exact absurd hp hd
          · exact ⟨c, hc, hp⟩
        obtain ⟨xs, c, ys, rfl, hxs, hc⟩ := ih hrest
        refine ⟨d :: xs, c, ys, rfl, ?_, hc⟩
        intro x hx
        rcases List.mem_cons.mp hx with rfl | hx
        · simpa using hd
        · exact hxs x hx

/-- Between two consecutive openings some event closes the first gap. If it is a
`ReAnchored`, it has the gap's generation and reaches its `ahead`, and no other
`ReAnchored` follows. -/
theorem Lawful.pairing {calls : List SinkCall} (h : Lawful calls)
    {pre mid post : List SinkCall} {f f' : ℕ} {ahead ahead' : Option ℕ} {gen gen' : ℕ}
    (he : calls = pre ++ .onEvent (.gapOpened f ahead gen) ::
      (mid ++ .onEvent (.gapOpened f' ahead' gen') :: post))
    (hmid : ∀ c ∈ mid, c.isGapOpened = false) :
    ∃ m₁ c m₂, mid = m₁ ++ c :: m₂ ∧ (∀ x ∈ m₁, x.closesGap = false) ∧
      (c.isBoundary = true ∨
        ∃ x at_, ahead = some x ∧ c = .onEvent (.reAnchored gen at_) ∧ x ≤ at_) ∧
      ∀ x ∈ m₂, x.isReAnchored = false := by
  have hopen : openGap (pre ++ [.onEvent (.gapOpened f ahead gen)]) = some (ahead, gen) := by
    rw [openGap_append]; rfl
  have hclosed : openGap (pre ++ .onEvent (.gapOpened f ahead gen) :: mid) = none :=
    (h _ (.onEvent (.gapOpened f' ahead' gen')) post (by rw [he]; simp)).1
  have hsplit : ∀ m, pre ++ .onEvent (.gapOpened f ahead gen) :: m =
      (pre ++ [.onEvent (.gapOpened f ahead gen)]) ++ m := by simp
  -- otherwise the first gap would still be open at the second opening
  have hex : ∃ c ∈ mid, c.closesGap = true := by
    by_contra hnone
    have hneutral : mid.foldl gapAfter (some (ahead, gen)) = some (ahead, gen) :=
      foldl_gapAfter_of_neutral fun c hc =>
        ⟨hmid c hc, by simpa using fun hcl => hnone ⟨c, hc, hcl⟩⟩
    rw [hsplit, openGap_append, hopen, hneutral] at hclosed
    cases hclosed
  obtain ⟨m₁, c, m₂, rfl, hm₁, hc⟩ := exists_first hex
  have hgap₁ : openGap (pre ++ .onEvent (.gapOpened f ahead gen) :: m₁) = some (ahead, gen) := by
    rw [hsplit, openGap_append, hopen]
    exact foldl_gapAfter_of_neutral fun x hx => ⟨hmid x (by simp [hx]), hm₁ x hx⟩
  have hfollow : Follows (pre ++ .onEvent (.gapOpened f ahead gen) :: m₁) c :=
    h _ c (m₂ ++ .onEvent (.gapOpened f' ahead' gen') :: post) (by rw [he]; simp)
  have hafter : gapAfter (some (ahead, gen)) c = none := gapAfter_of_closes hc _
  refine ⟨m₁, c, m₂, rfl, hm₁, ?_, ?_⟩
  · cases hb : c.isBoundary with
    | true => exact Or.inl rfl
    | false =>
        right
        simp only [SinkCall.closesGap, hb, Bool.or_false] at hc
        unfold SinkCall.isReAnchored at hc
        split at hc
        · rename_i g at_
          obtain ⟨x, hx, hle⟩ := hfollow
          rw [hgap₁, Option.some.injEq, Prod.mk.injEq] at hx
          exact ⟨x, at_, hx.1, by rw [hx.2], hle⟩
        · cases hc
  · intro x hx
    by_contra hre
    obtain ⟨n₁, y, n₂, rfl, -, hy⟩ := exists_first ⟨x, hx, by simpa using hre⟩
    -- the gap was closed by `c` and nothing opened it again
    have hy' : Follows ((pre ++ .onEvent (.gapOpened f ahead gen) :: m₁) ++ c :: n₁) y :=
      h _ y (n₂ ++ .onEvent (.gapOpened f' ahead' gen') :: post) (by rw [he]; simp)
    have hgap : openGap ((pre ++ .onEvent (.gapOpened f ahead gen) :: m₁) ++ c :: n₁) = none := by
      rw [openGap_append, hgap₁, List.foldl_cons, hafter]
      exact foldl_gapAfter_none fun z hz => hmid z (by simp [hz])
    unfold SinkCall.isReAnchored at hy
    split at hy
    · obtain ⟨a, ha, -⟩ := hy'
      rw [hgap] at ha
      cases ha
    · cases hy

/-- A `ReAnchored` closes the gap opened last: nothing closed it in between. -/
theorem Lawful.reAnchored_paired {calls : List SinkCall} (h : Lawful calls)
    {pre post : List SinkCall} {gen at_ : ℕ}
    (he : calls = pre ++ .onEvent (.reAnchored gen at_) :: post) :
    ∃ p₁ f x p₂, pre = p₁ ++ .onEvent (.gapOpened f (some x) gen) :: p₂ ∧ x ≤ at_ ∧
      ∀ c ∈ p₂, c.isGapOpened = false ∧ c.closesGap = false := by
  obtain ⟨x, hx, hle⟩ := h pre _ post he
  clear he h
  induction pre using List.reverseRecOn with
  | nil => cases hx
  | append_singleton pre c ih =>
      rw [openGap_append, List.foldl_cons, List.foldl_nil] at hx
      unfold gapAfter at hx
      split at hx
      · rename_i f ahead g
        simp only [Option.some.injEq, Prod.mk.injEq] at hx
        obtain ⟨rfl, rfl⟩ := hx
        exact ⟨pre, f, x, [], rfl, hle, by simp⟩
      · cases hx
      · cases hx
      · rename_i h₁ h₂ h₃
        obtain ⟨p₁, f, y, p₂, rfl, hy, hp₂⟩ := ih hx
        refine ⟨p₁, f, y, p₂ ++ [c], by simp, hy, ?_⟩
        intro d hd
        rcases List.mem_append.mp hd with hd | hd
        · exact hp₂ d hd
        · rw [List.mem_singleton.mp hd]
          constructor
          · unfold SinkCall.isGapOpened
            split
            · exact absurd rfl (h₁ _ _ _)
            · rfl
          · unfold SinkCall.closesGap SinkCall.isReAnchored SinkCall.isBoundary
            split
            · exact absurd rfl (h₂ _ _)
            · split
              · exact absurd rfl (h₃ _ _ _)
              · rfl

namespace Sequencer

/-- The history is lawful, and the state knows its generation, the open gap and how many
gaps were opened and closed. -/
structure Tracked (calls : List SinkCall) (s : Sequencer) : Prop where
  lawful : Lawful calls
  gen : s.gen = eras calls % 2 ^ 64
  opened : s.gapActive = true →
    ∃ ahead, openGap calls = some (some ahead, s.gen) ∧ ahead ≤ s.evidenceHwm
  closed : s.gapActive = false → openGap calls = none
  gapOpens : s.counters.gapOpens = calls.countP SinkCall.isGapOpened
  reanchors : s.counters.reanchors = calls.countP SinkCall.isReAnchored

theorem new_tracked : Tracked [] new where
  lawful := lawful_nil
  gen := rfl
  opened := nofun
  closed _ := rfl
  gapOpens := rfl
  reanchors := rfl

section Tracked

variable {calls : List SinkCall} {s t : Sequencer}

theorem Tracked.of_core (h : Tracked calls s) (ht : t.core = s.core) : Tracked calls t := by
  constructor
  · exact h.lawful
  · rw [gen_of_core ht]; exact h.gen
  · rw [gapActive_of_core ht, gen_of_core ht, evidenceHwm_of_core ht]; exact h.opened
  · rw [gapActive_of_core ht]; exact h.closed
  · rw [gapOpens_of_core ht]; exact h.gapOpens
  · rw [reanchors_of_core ht]; exact h.reanchors

/-- A call that is no gap or boundary event keeps the state's knowledge. -/
theorem Tracked.neutral (h : Tracked calls s) {c : SinkCall} (hc : Follows calls c)
    (h₁ : c.isGapOpened = false) (h₂ : c.closesGap = false) : Tracked (calls ++ [c]) s := by
  have hre : c.isReAnchored = false ∧ c.isBoundary = false := by
    simpa [SinkCall.closesGap] using h₂
  have heras : eras (calls ++ [c]) = eras calls := by
    simp [eras, List.countP_append, SinkCall.opensEra, h₁, hre.2]
  have hgap : openGap (calls ++ [c]) = openGap calls := by
    rw [openGap_append, List.foldl_cons, gapAfter_of_neutral h₁ h₂]
    rfl
  constructor
  · exact h.lawful.snoc hc
  · rw [heras]; exact h.gen
  · rw [hgap]; exact h.opened
  · rw [hgap]; exact h.closed
  · rw [h.gapOpens, List.countP_append]; simp [h₁]
  · rw [h.reanchors, List.countP_append]; simp [hre.1]

theorem Tracked.deliver (h : Tracked calls s) (items : List (ℕ × List UInt8)) :
    Tracked (calls ++ deliver ⟨s.gen⟩ items) s := by
  induction items generalizing calls with
  | nil => simpa using h
  | cons i items ih =>
      have hone : Tracked (calls ++ [.onMsg ⟨s.gen⟩ i.1 i.2]) s := h.neutral h.gen rfl rfl
      simpa [Arbitrator.deliver] using ih hone

theorem Tracked.gapEvidence (h : Tracked calls s) {x : ℕ} (hx : s.w < x) :
    Tracked (calls ++ (s.gapEvidence x).2) (s.gapEvidence x).1 := by
  unfold Sequencer.gapEvidence
  by_cases hg : s.gapActive
  · have hn : ¬(s.gapActive = false ∧ x > s.w) := fun hc => by simp [hg] at hc
    obtain ⟨ahead, hopen, hle⟩ := h.opened hg
    simp only [if_neg hn, if_pos hg, List.append_nil]
    exact
      { lawful := h.lawful
        gen := h.gen
        opened := fun _ => ⟨ahead, hopen, hle.trans (Nat.le_max_left _ _)⟩
        closed := h.closed
        gapOpens := h.gapOpens
        reanchors := h.reanchors }
  · have hg' : s.gapActive = false := by simpa using hg
    rw [if_pos ⟨hg', hx⟩]
    have hgen : wrappingAdd s.gen 1 = (eras calls + 1) % 2 ^ 64 := by
      rw [wrappingAdd, h.gen, Nat.mod_add_mod]
    exact
      { lawful := h.lawful.snoc ⟨h.closed hg', hgen⟩
        gen := by rw [eras_append]; exact hgen
        opened := fun _ => ⟨x, by rw [openGap_append]; rfl, le_rfl⟩
        closed := fun h => by cases h
        gapOpens := by
          rw [List.countP_append, ← h.gapOpens]
          rfl
        reanchors := by
          rw [List.countP_append, ← h.reanchors]
          rfl }

theorem Tracked.checkGapClose (h : Tracked calls s) :
    Tracked (calls ++ (s.checkGapClose s.gen).2) (s.checkGapClose s.gen).1 := by
  unfold Sequencer.checkGapClose
  by_cases hc : s.gapActive ∧ s.w ≥ s.evidenceHwm
  · rw [if_pos hc]
    obtain ⟨ahead, hopen, hle⟩ := h.opened hc.1
    exact
      { lawful := h.lawful.snoc ⟨ahead, hopen, hle.trans hc.2⟩
        gen := by
          rw [eras_append]
          exact h.gen
        opened := nofun
        closed := fun _ => by rw [openGap_append]; rfl
        gapOpens := by
          rw [List.countP_append, ← h.gapOpens]
          rfl
        reanchors := by
          rw [List.countP_append, ← h.reanchors]
          rfl }
  · rw [if_neg hc, List.append_nil]
    exact h

theorem Tracked.act {src : ℕ → List UInt8 → Prop} {more : List SinkCall}
    (h : Tracked calls s) (hact : Act src s more t) : Tracked (calls ++ more) t := by
  cases hact with
  | note hcore => simpa using h.of_core hcore
  | evidence x hx hcore => exact (h.gapEvidence hx).of_core hcore
  | announce st call _ hcall hcore =>
      have hst : Tracked calls { s with state := st } := { h with }
      rcases hcall with rfl | ⟨a, rfl⟩ | ⟨r, rfl⟩
      · simpa using hst.of_core hcore
      · exact (hst.neutral (c := .onEvent (.endOfSession _ _ a)) trivial rfl rfl).of_core hcore
      · exact (hst.neutral (c := .onEvent (.sessionDead r _)) trivial rfl rfl).of_core hcore
  | anchor first _ _ hcore =>
      have hst : Tracked calls { s with w := first, state := .contig } := { h with }
      simpa using hst.of_core hcore
  | emit items _ hcore => exact (h.deliver items).of_core hcore
  | advance hc start items win _ _ _ _ _ hcore =>
      have hmsgs := (h.deliver items).deliver (hc.buffer.released start)
      have hst : Tracked (calls ++ Arbitrator.deliver ⟨s.gen⟩ items ++
          Arbitrator.deliver ⟨s.gen⟩ (hc.buffer.released start))
          { s with w := hc.buffer.firstMissing start, window := win } := { hmsgs with }
      have hend := hst.checkGapClose.of_core hcore
      simpa only [List.append_assoc] using hend
  | hold _ first ds win _ _ _ _ _ _ _ hcore =>
      have hst : Tracked calls { s with window := win } := { h with }
      simpa using hst.of_core hcore

theorem Tracked.acts {src : ℕ → List UInt8 → Prop} {more : List SinkCall}
    (h : Tracked calls s) (hacts : Acts src s more t) : Tracked (calls ++ more) t := by
  induction hacts generalizing calls with
  | refl => simpa using h
  | step hact _ ih =>
      rw [← List.append_assoc]
      exact ih (h.act hact)

theorem Tracked.dispatched {next : SessionId} {more : List SinkCall} (h : Tracked calls s)
    (hd : Dispatched next s more t) : Tracked (calls ++ more) t := by
  cases hd with
  | same _ hcore => simpa using h.of_core hcore
  | adopt _ hcore =>
      have hst : Tracked calls { s with session := next } := { h with }
      simpa using hst.of_core hcore
  | boundary _ _ hcore =>
      have hgen : wrappingAdd s.gen 1 = (eras calls + 1) % 2 ^ 64 := by
        rw [wrappingAdd, h.gen, Nat.mod_add_mod]
      have hst : Tracked (calls ++ [.onEvent (.sessionBoundary s.session next
          (wrappingAdd s.gen 1))]) (s.crossTo next) :=
        { lawful := h.lawful.snoc hgen
          gen := by rw [eras_append]; exact hgen
          opened := fun h => by cases h
          closed := fun _ => by rw [openGap_append]; rfl
          gapOpens := by
            rw [List.countP_append, ← h.gapOpens]
            rfl
          reanchors := by
            rw [List.countP_append, ← h.reanchors]
            rfl }
      exact hst.of_core hcore

theorem Tracked.called {i : Input} {r : Traced Sequencer SinkCall} (h : Tracked calls s)
    (hc : Called s i r) : Tracked (calls ++ r.2) r.1 := by
  cases hc with
  | silent hcore => simpa using h.of_core hcore
  | sealed hacts => exact h.acts hacts
  | frame _ _ hd hacts =>
      rw [← List.append_assoc]
      exact (h.dispatched hd).acts hacts

end Tracked

theorem run_tracked {inputs : List Input} (hr : ∀ i ∈ inputs, i.InRange) :
    Tracked (sinkCalls (run inputs).2) (run inputs).1 := by
  have key : (run inputs).1.Coherent ∧ Tracked (sinkCalls (run inputs).2) (run inputs).1 := by
    refine Machine.run_history (P := fun _ r => r.1.Coherent ∧ Tracked (sinkCalls r.2) r.1)
      ⟨new_coherent, new_tracked⟩ ?_ inputs (Machine.along_of_forall (fun _ _ h => h) _ _ hr)
    rintro is r i ⟨hs, ht⟩ hi
    refine ⟨step_coherent hs hi, ?_⟩
    rw [Traced.andThen_snd, sinkCalls_append]
    exact ht.called (step_called hs hi)
  exact key.2

/-- Between two consecutive openings an event closes the first gap; a `ReAnchored` among
the events in between is that one, with the gap's generation and at or past its `ahead`. -/
def OpeningsPaired (calls : List SinkCall) : Prop :=
  ∀ (pre mid post : List SinkCall) (f f' : ℕ) (ahead ahead' : Option ℕ) (gen gen' : ℕ),
    calls = pre ++ .onEvent (.gapOpened f ahead gen) ::
      (mid ++ .onEvent (.gapOpened f' ahead' gen') :: post) →
    (∀ c ∈ mid, c.isGapOpened = false) →
    ∃ m₁ c m₂, mid = m₁ ++ c :: m₂ ∧ (∀ x ∈ m₁, x.closesGap = false) ∧
      (c.isBoundary = true ∨
        ∃ x at_, ahead = some x ∧ c = .onEvent (.reAnchored gen at_) ∧ x ≤ at_) ∧
      ∀ x ∈ m₂, x.isReAnchored = false

/-- A `ReAnchored` closes an open gap: one opened before with nothing closing it in between. -/
def ReAnchorsPaired (calls : List SinkCall) : Prop :=
  ∀ (pre post : List SinkCall) (gen at_ : ℕ),
    calls = pre ++ .onEvent (.reAnchored gen at_) :: post →
    ∃ p₁ f x p₂, pre = p₁ ++ .onEvent (.gapOpened f (some x) gen) :: p₂ ∧ x ≤ at_ ∧
      ∀ c ∈ p₂, c.isGapOpened = false ∧ c.closesGap = false

/-- The generation law and the event grammar of a run in range: the generation counts the
gaps opened and the boundaries crossed, every call carries the generation of its moment,
gap events pair up, and the counters count them. -/
theorem generation_law (inputs : List Input) (hr : ∀ i ∈ inputs, i.InRange) :
    (run inputs).1.gen = eras (sinkCalls (run inputs).2) % 2 ^ 64 ∧
    Lawful (sinkCalls (run inputs).2) ∧
    OpeningsPaired (sinkCalls (run inputs).2) ∧
    ReAnchorsPaired (sinkCalls (run inputs).2) ∧
    (run inputs).1.counters.gapOpens =
      (sinkCalls (run inputs).2).countP SinkCall.isGapOpened ∧
    (run inputs).1.counters.reanchors =
      (sinkCalls (run inputs).2).countP SinkCall.isReAnchored := by
  have h := run_tracked hr
  exact ⟨h.gen, h.lawful, fun _ _ _ _ _ _ _ _ _ he hmid => h.lawful.pairing he hmid,
    fun _ _ _ _ he => h.lawful.reAnchored_paired he, h.gapOpens, h.reanchors⟩

/-- Two gaps with a boundary after the first one closed. -/
def twoGapsRun : List Input :=
  [.frame (makeFrame (SessionId.repeated 65) 1 1) 0 10,
    .frame (makeFrame (SessionId.repeated 65) 3 1) 0 20,
    .frame (makeFrame (SessionId.repeated 65) 2 1) 0 30,
    .frame (makeFrame (SessionId.repeated 66) 1 1) 0 40,
    .frame (makeFrame (SessionId.repeated 66) 3 1) 0 50]

theorem generation_law_twoGaps :
    (run twoGapsRun).1.gen = eras (sinkCalls (run twoGapsRun).2) % 2 ^ 64 :=
  (generation_law twoGapsRun (by decide)).1

/-- Two events of the closing kinds lie between its two consecutive openings. -/
theorem pairing_not_unique :
    ¬∀ (pre mid post : List SinkCall) (f f' : ℕ) (ahead ahead' : Option ℕ) (gen gen' : ℕ),
      sinkCalls (run twoGapsRun).2 = pre ++ .onEvent (.gapOpened f ahead gen) ::
        (mid ++ .onEvent (.gapOpened f' ahead' gen') :: post) →
      (∀ c ∈ mid, c.isGapOpened = false) → mid.countP SinkCall.closesGap = 1 := by
  intro h
  have hcalls : sinkCalls (run twoGapsRun).2 = (sinkCalls (run twoGapsRun).2).take 1 ++
      .onEvent (.gapOpened 2 (some 3) 1) :: (((sinkCalls (run twoGapsRun).2).drop 2).take 5 ++
        .onEvent (.gapOpened 2 (some 3) 3) :: []) := by decide +kernel
  exact absurd (h _ _ _ _ _ _ _ _ _ hcalls (by decide +kernel)) (by decide +kernel)

end Sequencer

end HftProj.Arbitrator
