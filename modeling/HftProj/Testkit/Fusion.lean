import HftProj.Arbitrator.Calls
import HftProj.Arbitrator.PackedSpans
import HftProj.Testkit.Rerecord

/-!
# Call fusion

Consecutive packed calls of a batch are recorded as one: the words of the later call are
moved to the base of the earlier one by an addition. All bodies lie in one blob of less than
4 GiB, so that a moved offset stays in its 32 bits, and a recording stands for the spans it
was made of, however it was fused.
-/

namespace HftProj.Testkit

open HftProj.Lib HftProj.Protocol HftProj.Protocol.Moldudp64 HftProj.Arbitrator

/-- What is shown to the sink, up to the grouping of packed spans into calls. -/
inductive Item where
  | packed (x : Extent)
  | call (c : BatchCall)
  deriving DecidableEq

def items : BatchCall → List Item
  | .spanBatchPacked proof firstSeq _ base words =>
      (extents proof.gen base firstSeq words).map .packed
  | c => [.call c]

namespace PassReplay

/-- What a recorded call is issued as. -/
def itemsOf (L : PassReplay) (c : Call) : List Item :=
  match L.replayCall c with
  | .ok out => items out
  | .error _ => []

/-- What the recorded calls are issued as, one after the other. -/
def shown (L : PassReplay) : List Item := L.calls.flatMap L.itemsOf

/-- What happens to a ledger that records: a pass begins, or a batch is scanned live. -/
inductive Bracket where
  | pass
  | batch (t : BatchView) (before : Sequencer) (calls : List BatchCall) (after : Sequencer)

@[grind =]
def Bracket.calls : Bracket → List BatchCall
  | .pass => []
  | .batch _ _ calls _ => calls

def record (L : PassReplay) : Bracket → PassReplay
  | .pass => L.beginPass
  | .batch t before calls after => (calls.foldl tee (L.beginRecord t before)).sealBatch after

/-- A ledger that is on and holds nothing. -/
structure Blank (L : PassReplay) : Prop where
  enabled : L.enabled = true
  live : L.poison = false
  calls : L.calls = []
  words : L.words = []
  recs : L.recs = []

/-! ## Moved words -/

section Move

variable {lo size : ℕ}

/-- A word moved to a lower base of the same blob names the same body, and its offset stays
below its length field. -/
theorem moved_word {word base pbase : ℕ} (hlow : lo ≤ pbase) (hle : pbase ≤ base)
    (hsmall : size < 2 ^ 32) (hword : word < 2 ^ 64)
    (hin : base + word % 2 ^ 32 + word / 2 ^ 32 % 2 ^ 16 ≤ lo + size) :
    let moved := wrappingAdd word (base - pbase)
    moved % 2 ^ 32 = word % 2 ^ 32 + (base - pbase) ∧ moved / 2 ^ 32 = word / 2 ^ 32 ∧
      moved < 2 ^ 64 := by
  have hoff : word % 2 ^ 32 + (base - pbase) < 2 ^ 32 := by omega
  have hlt : word + (base - pbase) < 2 ^ 64 := by omega
  dsimp only
  rw [wrappingAdd_of_lt hlt]
  omega

theorem moved_count {word moved : ℕ} (h : moved / 2 ^ 32 = word / 2 ^ 32) :
    moved / 2 ^ 48 = word / 2 ^ 48 := by omega

/-- Moved words stand for the spans of the words. -/
theorem extents_moved (gen : ℕ) {base pbase : ℕ} (hlow : lo ≤ pbase) (hle : pbase ≤ base)
    (hsmall : size < 2 ^ 32) (firstSeq : ℕ) {words : List ℕ}
    (hwords : ∀ word ∈ words, word < 2 ^ 64 ∧
      base + word % 2 ^ 32 + word / 2 ^ 32 % 2 ^ 16 ≤ lo + size) :
    extents gen pbase firstSeq (words.map fun w => wrappingAdd w (base - pbase)) =
      extents gen base firstSeq words := by
  induction words generalizing firstSeq with
  | nil => rfl
  | cons word words ih =>
      obtain ⟨hword, hin⟩ := hwords word List.mem_cons_self
      obtain ⟨hoff, hfields, -⟩ := moved_word hlow hle hsmall hword hin
      have hrest := fun firstSeq => ih firstSeq fun word' h =>
        hwords word' (List.mem_cons_of_mem word h)
      rw [List.map_cons, extents, extents, moved_count hfields, hrest, hoff, hfields,
        show pbase + (word % 2 ^ 32 + (base - pbase)) = base + word % 2 ^ 32 by omega]

theorem wordsEnd_sum (firstSeq : ℕ) {words : List ℕ} (hne : words ≠ []) :
    wordsEnd firstSeq words = wrappingAdd firstSeq (words.map (· / 2 ^ 48)).sum := by
  induction words generalizing firstSeq with
  | nil => exact absurd rfl hne
  | cons word words ih =>
      cases words with
      | nil => simp [wordsEnd]
      | cons word' words =>
          have hrest := ih (wrappingAdd firstSeq (word / 2 ^ 48)) (List.cons_ne_nil _ _)
          rw [wrappingAdd_assoc] at hrest
          exact hrest

/-- The words of a call, followed by those of its successor moved to its base, are one call
with the spans of both. -/
theorem fused_call {gen first total pbase base : ℕ} {pws words : List ℕ} (hsmall : size < 2 ^ 32)
    (hle : pbase ≤ base) {pfirst ptotal : ℕ} (hfirst : wrappingAdd pfirst ptotal = first)
    (hprev : BatchCall.Carried lo size (.spanBatchPacked ⟨gen⟩ pfirst ptotal pbase pws))
    (hnext : BatchCall.Carried lo size (.spanBatchPacked ⟨gen⟩ first total base words)) :
    let fused := .spanBatchPacked ⟨gen⟩ pfirst (ptotal + total) pbase
      (pws ++ words.map fun w => wrappingAdd w (base - pbase))
    items fused = items (.spanBatchPacked ⟨gen⟩ pfirst ptotal pbase pws) ++
        items (.spanBatchPacked ⟨gen⟩ first total base words) ∧
      BatchCall.Carried lo size fused := by
  obtain ⟨hne, hptotal, hplow, hpin⟩ := hprev
  obtain ⟨-, htotal, -, hin⟩ := hnext
  have hmoved : ∀ word ∈ words, _ := fun word h =>
    moved_word hplow hle hsmall (hin word h).1 (hin word h).2
  dsimp only
  constructor
  · rw [items, items, items, extents_append, List.map_append, wordsEnd_sum _ hne, ← hptotal, hfirst,
      extents_moved gen hplow hle hsmall first hin]
  · refine ⟨List.append_ne_nil_of_left_ne_nil hne _, ?_, hplow, fun word h => ?_⟩
    · rw [List.map_append, List.sum_append, ← hptotal, List.map_map, htotal]
      congr 2
      exact List.map_congr_left fun word h => (moved_count (hmoved word h).2.1).symm
    · rcases List.mem_append.mp h with hold | hnew
      · exact hpin word hold
      · obtain ⟨word', hword', rfl⟩ := List.mem_map.mp hnew
        obtain ⟨hoff, hfields, hlt⟩ := hmoved word' hword'
        have hreach := (hin word' hword').2
        refine ⟨hlt, ?_⟩
        rw [hoff, hfields]
        omega

end Move

/-! ## What one call adds -/

section Step

variable {L L₀ : PassReplay} {lo size : ℕ} {log : List Item}

/-- The ledger stands for `log`, and its packed calls name bodies inside the blob. -/
structure Booked (lo size : ℕ) (log : List Item) (L : PassReplay) : Prop where
  sound : L.Sound
  shown : L.shown = log
  carried : ∀ c ∈ L.calls, ∀ out, L.replayCall c = .ok out → out.Carried lo size

/-- A slice up to the end of a list, and what is appended to the list. -/
theorem slice_grow {α : Type} {xs : List α} {a n : ℕ} (hend : a + n = xs.length) (ys : List α) :
    slice (xs ++ ys) a (a + (n + ys.length)) = slice xs a (a + n) ++ ys := by
  have htake : ∀ zs : List α, slice zs a zs.length = zs.drop a := by
    intro zs
    rw [slice, List.take_of_length_le]
    rw [List.length_drop]
  rw [show a + (n + ys.length) = (xs ++ ys).length by rw [List.length_append]; omega, htake, hend,
    htake, List.drop_append_of_le_length (by omega)]

/-- A recorded call reads the same in larger buffers. -/
theorem replayCall_grow {c : Call} (h : c.Within L₀) (hwords : L₀.words <+: L.words)
    (hrecs : L₀.recs <+: L.recs) : L.replayCall c = L₀.replayCall c :=
  @replayCall_extends { L with calls := [] } { L₀ with calls := [] } _ h
    ⟨List.prefix_refl _, hwords, hrecs⟩

/-- One more call, and what it reads, behind those recorded. -/
theorem Booked.add (h : Booked lo size log L₀) (hwords : L₀.words <+: L.words)
    (hrecs : L₀.recs <+: L.recs) {c : Call} (hcalls : L.calls = L₀.calls ++ [c])
    (hwithin : c.Within L) {out : BatchCall} (hout : L.replayCall c = .ok out)
    (hcarried : out.Carried lo size) : Booked lo size (log ++ items out) L where
  sound := by
    intro c' hc'
    rcases List.mem_append.mp (hcalls ▸ hc') with hold | hnew
    · exact (h.sound c' hold).mono hwords.length_le hrecs.length_le
    · rw [List.mem_singleton.mp hnew]
      exact hwithin
  shown := by
    have hold : L₀.calls.flatMap L.itemsOf = L₀.calls.flatMap L₀.itemsOf :=
      List.flatMap_congr fun c' hc' => by
        rw [itemsOf, itemsOf, replayCall_grow (h.sound c' hc') hwords hrecs]
    rw [PassReplay.shown, hcalls, List.flatMap_append, hold, ← PassReplay.shown, h.shown,
      List.flatMap_singleton, itemsOf, hout]
  carried := by
    intro c' hc' out' hout'
    rcases List.mem_append.mp (hcalls ▸ hc') with hold | hnew
    · rw [replayCall_grow (h.sound c' hold) hwords hrecs] at hout'
      exact h.carried c' hold out' hout'
    · rw [List.mem_singleton.mp hnew, hout] at hout'
      exact Except.ok.inj hout' ▸ hcarried

/-- The ledger without its last call. -/
theorem Booked.dropLast (h : Booked lo size log L) {c : Call} {out : BatchCall}
    (hlast : L.calls.getLast? = some c) (hout : L.replayCall c = .ok out) :
    ∃ log', log = log' ++ items out ∧
      Booked lo size log' { L with calls := L.calls.dropLast } := by
  obtain ⟨init, hinit⟩ := List.getLast?_eq_some_iff.mp hlast
  have hdrop : L.calls.dropLast = init := by rw [hinit, List.dropLast_concat]
  refine ⟨init.flatMap L.itemsOf, ?_, ?_, ?_, ?_⟩
  · rw [← h.shown, PassReplay.shown, hinit, List.flatMap_append, List.flatMap_singleton, itemsOf,
      hout]
  · exact fun c' hc' => h.sound c' (List.mem_of_mem_dropLast hc')
  · rw [PassReplay.shown, hdrop]
    rfl
  · exact fun c' hc' => h.carried c' (List.mem_of_mem_dropLast hc')

/-- The recorder takes a call, unless its capacity is exceeded. -/
theorem pushCall_cases (hrec : L.recording.isSome) (hlive : L.poison = false) (c : Call) :
    (L.pushCall c).poison = true ∨ L.pushCall c = { L with calls := L.calls ++ [c] } := by
  unfold pushCall
  rw [if_neg (by simp [hlive, Option.isSome_iff_ne_none.mp hrec])]
  split
  · exact .inl rfl
  · exact .inr rfl

/-- What `try_fuse_packed` does: it absorbs the call into a predecessor it continues, or leaves
the buffers alone. -/
theorem tryFusePacked_cases (L : PassReplay) (gen first total base : ℕ) (words : List ℕ) :
    (∃ pfirst ptotal pbase pwLo pn,
      L.calls.getLast? = some (.packed gen pfirst ptotal pbase pwLo pn) ∧
        wrappingAdd pfirst ptotal = first ∧ pwLo + pn = L.words.length ∧ pbase ≤ base ∧
        L.tryFusePacked gen first total base words =
          ({ L with
              words := L.words ++ words.map fun w => wrappingAdd w (base - pbase)
              calls := L.calls.dropLast ++
                [.packed gen pfirst (ptotal + total) pbase pwLo (pn + words.length)]
              fusedCalls := L.fusedCalls + 1 }, true)) ∨
    ∃ barrier, L.tryFusePacked gen first total base words =
      ({ L with fusionBarrier := barrier }, false) := by
  unfold tryFusePacked
  split
  · exact .inr ⟨L.fusionBarrier, rfl⟩
  split
  · exact .inr ⟨false, rfl⟩
  split
  · rename_i hlast
    split
    · exact .inr ⟨L.fusionBarrier, rfl⟩
    · rename_i hguard
      simp only [not_or, not_not, Nat.not_lt] at hguard
      obtain ⟨rfl, hfirst, hend, hle, -⟩ := hguard
      exact .inl ⟨_, _, _, _, _, hlast, hfirst, hend, hle, rfl⟩
  · exact .inr ⟨L.fusionBarrier, rfl⟩

variable (h : Booked lo size log L) (hrec : L.recording.isSome) (hlive : L.poison = false)

include h hrec hlive

theorem Booked.pushCall {c : Call} {out : BatchCall} (hwithin : c.Within L)
    (hout : L.replayCall c = .ok out) (hcarried : out.Carried lo size) :
    (L.pushCall c).poison = true ∨ Booked lo size (log ++ items out) (L.pushCall c) := by
  rcases pushCall_cases hrec hlive c with hpoison | hpush
  · exact .inl hpoison
  · rw [hpush]
    apply Or.inr
    apply h.add ?_ ?_ rfl
    · exact hwithin.mono (Nat.le_refl _) (Nat.le_refl _)
    · rw [← hout]
      exact replayCall_grow hwithin (List.prefix_refl _) (List.prefix_refl _)
    · exact hcarried
    · exact List.prefix_refl _
    · exact List.prefix_refl _

theorem Booked.spanBatch {proof : LiveFeedProof} {recs : List SpanRec}
    (hstaged : recs.length ≤ SPAN_STAGE) :
    (L.tee (.spanBatch proof recs)).poison = true ∨
      Booked lo size (log ++ items (.spanBatch proof recs)) (L.tee (.spanBatch proof recs)) := by
  simp only [tee, if_pos (show L.recording.isSome = true ∧ L.poison = false from ⟨hrec, hlive⟩)]
  split
  · exact .inl rfl
  · let grown : PassReplay := { L with recs := L.recs ++ recs }
    rcases pushCall_cases (show grown.recording.isSome from hrec) hlive
      (.spanBatch proof.gen L.recs.length recs.length) with hpoison | hpush
    · exact .inl hpoison
    · rw [hpush]
      apply Or.inr
      have hend : L.recs.length + recs.length = (L.recs ++ recs).length := by
        rw [List.length_append]
      apply h.add ?_ (List.prefix_append _ _) rfl
      · exact ⟨hstaged, hend.le⟩
      · simp only [replayCall, grown]
        rw [if_neg (Nat.not_lt.mpr hstaged), if_neg (Nat.not_lt.mpr hend.le), slice,
          Nat.add_sub_cancel_left, List.drop_left, List.take_length]
      · trivial
      · exact List.prefix_refl _

theorem Booked.packed (hsmall : size < 2 ^ 32) {proof : LiveFeedProof}
    {first total base : ℕ} {words : List ℕ}
    (hcarried : BatchCall.Carried lo size (.spanBatchPacked proof first total base words)) :
    (L.tee (.spanBatchPacked proof first total base words)).poison = true ∨
      Booked lo size (log ++ items (.spanBatchPacked proof first total base words))
        (L.tee (.spanBatchPacked proof first total base words)) := by
  simp only [tee, if_pos (show L.recording.isSome = true ∧ L.poison = false from ⟨hrec, hlive⟩)]
  split
  · exact .inl rfl
  rcases L.tryFusePacked_cases proof.gen first total base words with
    ⟨pfirst, ptotal, pbase, pwLo, pn, hlast, hfirst, hend, hle, hfuse⟩ | ⟨barrier, hfuse⟩
  · rw [hfuse, if_pos rfl]
    apply Or.inr
    have hprev : L.replayCall (.packed proof.gen pfirst ptotal pbase pwLo pn) =
        .ok (.spanBatchPacked proof pfirst ptotal pbase (slice L.words pwLo (pwLo + pn))) := by
      rw [replayCall, if_neg (by omega)]
    obtain ⟨log', rfl, hinit⟩ := h.dropLast hlast hprev
    obtain ⟨hitems, hfused⟩ := fused_call hsmall hle hfirst
      (h.carried _ (List.mem_of_getLast? hlast) _ hprev) hcarried
    rw [List.append_assoc, ← hitems]
    apply hinit.add (List.prefix_append _ _) ?_ rfl
    · simp only [Call.Within, List.length_append, List.length_map]
      omega
    · simp only [replayCall]
      rw [if_neg (by rw [List.length_append, List.length_map]; omega)]
      have hslice := slice_grow hend (words.map fun w => wrappingAdd w (base - pbase))
      rw [List.length_map] at hslice
      rw [hslice]
    · exact hfused
    · exact List.prefix_refl _
  · rw [hfuse, if_neg Bool.false_ne_true]
    let grown : PassReplay := { L with fusionBarrier := barrier, words := L.words ++ words }
    rcases pushCall_cases (show grown.recording.isSome from hrec) hlive
      (.packed proof.gen first total base L.words.length words.length) with hpoison | hpush
    · exact .inl hpoison
    · rw [hpush]
      apply Or.inr
      have hend : L.words.length + words.length = (L.words ++ words).length := by
        rw [List.length_append]
      apply h.add (List.prefix_append _ _) ?_ rfl
      · exact hend.le
      · simp only [replayCall, grown]
        rw [if_neg (Nat.not_lt.mpr hend.le), slice, Nat.add_sub_cancel_left, List.drop_left,
          List.take_length]
      · exact hcarried
      · exact List.prefix_refl _

/-- One call of a live batch is recorded for what it is. -/
theorem Booked.tee (hsmall : size < 2 ^ 32) {c : BatchCall} (hstaged : Staged c)
    (hcarried : c.Carried lo size) :
    (L.tee c).poison = true ∨ Booked lo size (log ++ items c) (L.tee c) := by
  cases c with
  | call c =>
      cases c with
      | onMsg proof seq msg => exact h.pushCall hrec hlive trivial rfl trivial
      | onEvent ev => exact h.pushCall hrec hlive trivial rfl trivial
      | onSpan proof firstSeq count body blocks => exact h.pushCall hrec hlive trivial rfl trivial
  | spanBatch proof recs => exact h.spanBatch hrec hlive hstaged
  | spanBatchPacked proof firstSeq total base words => exact h.packed hrec hlive hsmall hcarried

end Step

/-! ## Whole recordings -/

section Run

variable {L L₀ : PassReplay} {lo size : ℕ} {log : List Item}

/-- Only the buffers have a say. -/
theorem Booked.congr (h : Booked lo size log L₀) (hcalls : L.calls = L₀.calls)
    (hwords : L.words = L₀.words) (hrecs : L.recs = L₀.recs) : Booked lo size log L := by
  have hreplay : ∀ c, L.replayCall c = L₀.replayCall c := by
    intro c
    cases c <;> simp only [replayCall, hwords, hrecs]
  refine ⟨fun c hc => ?_, ?_, fun c hc out hout => ?_⟩
  · exact (h.sound c (hcalls ▸ hc)).mono (hwords ▸ Nat.le_refl _) (hrecs ▸ Nat.le_refl _)
  · rw [← h.shown, PassReplay.shown, PassReplay.shown, hcalls]
    exact List.flatMap_congr fun c _ => by rw [itemsOf, itemsOf, hreplay]
  · exact h.carried c (hcalls ▸ hc) out (hreplay c ▸ hout)

theorem Booked.empty (hcalls : L.calls = []) : Booked lo size [] L where
  sound := by
    intro c hc
    rw [hcalls] at hc
    cases hc
  shown := by rw [PassReplay.shown, hcalls, List.flatMap_nil]
  carried := by
    intro c hc
    rw [hcalls] at hc
    cases hc

theorem live_of_live {a b : Bool} (h : a = true → b = true) (hb : b = false) : a = false := by
  cases a with
  | false => rfl
  | true => exact (h rfl).symm.trans hb

/-- The calls of a batch are recorded for what they are. -/
theorem Booked.teeAll (hsmall : size < 2 ^ 32) {calls : List BatchCall} (hteed : Teed L₀ L)
    (hrec : L₀.recording.isSome) (h : Booked lo size log L)
    (hcalls : ∀ c ∈ calls, Staged c ∧ c.Carried lo size)
    (hlive : (calls.foldl PassReplay.tee L).poison = false) :
    Booked lo size (log ++ calls.flatMap items) (calls.foldl PassReplay.tee L) := by
  induction calls generalizing L log with
  | nil => exact (List.append_nil log).symm ▸ h
  | cons c calls ih =>
      obtain ⟨hstaged, hcarried⟩ := hcalls c List.mem_cons_self
      have hnext : (L.tee c).poison = false := live_of_live (teeAll_off _ calls).2 hlive
      have hopen : L.poison = false := live_of_live (L.tee_off c).2 hnext
      have hbooked := (h.tee (hteed.recording ▸ hrec) hopen hsmall hstaged hcarried).resolve_left
        (by rw [hnext]; exact Bool.false_ne_true)
      rw [List.flatMap_cons, ← List.append_assoc]
      exact ih (hteed.tee hstaged) hbooked (fun c' hc' => hcalls c' (List.mem_cons_of_mem c hc'))
        hlive

/-- A ledger between two brackets: an empty template stands for nothing. -/
structure Kept (lo size : ℕ) (log : List Item) (L : PassReplay) : Prop where
  enabled : L.enabled = true
  booked : Booked lo size log L
  fresh : L.batches = [] → log = []

theorem Blank.kept (h : L.Blank) (lo size : ℕ) : Kept lo size [] L :=
  ⟨h.enabled, Booked.empty h.calls, fun _ => rfl⟩

/-- The recording of a batch opens behind what is recorded. -/
theorem Kept.beginRecord (h : Kept lo size log L) (hlive : L.poison = false) (t : BatchView)
    (seq : Sequencer) :
    Booked lo size log (L.beginRecord t seq) ∧ (L.beginRecord t seq).recording.isSome ∧
      Teed (L.beginRecord t seq) (L.beginRecord t seq) := by
  have hbooked : Booked lo size log (L.beginRecord t seq) ∧
      (L.beginRecord t seq).recording.isSome ∧
        (L.beginRecord t seq).fusionBarrier = true := by
    unfold PassReplay.beginRecord
    rw [if_neg (by simp [h.enabled, hlive])]
    dsimp only
    split
    · rename_i hnone
      rw [h.fresh hnone]
      exact ⟨Booked.empty rfl, rfl, rfl⟩
    · exact ⟨h.booked.congr rfl rfl rfl, rfl, rfl⟩
  exact ⟨hbooked.1, hbooked.2.1, Teed.start hbooked.1.sound hbooked.2.2⟩

theorem sealBatch_kept (henabled : L.enabled = true) (h : Booked lo size log L)
    (hrec : L.recording.isSome) (seq : Sequencer) :
    (L.sealBatch seq).poison = true ∨ Kept lo size log (L.sealBatch seq) := by
  obtain ⟨rec, hrec⟩ := Option.isSome_iff_exists.mp hrec
  unfold sealBatch
  rw [hrec]
  dsimp only
  split
  · exact .inl rfl
  · refine .inr ⟨henabled, h.congr rfl rfl rfl, fun hnone => ?_⟩
    dsimp only at hnone
    split at hnone
    · rename_i hlt
      rw [List.set_eq_nil_iff] at hnone
      rw [hnone] at hlt
      cases hlt
    · simp at hnone

/-- A poisoned ledger stays poisoned. -/
theorem batch_live {t : BatchView} {before after : Sequencer} {calls : List BatchCall}
    (hlive : (L.record (.batch t before calls after)).poison = false) :
    L.poison = false ∧ (calls.foldl PassReplay.tee (L.beginRecord t before)).poison = false := by
  have hteed : (calls.foldl PassReplay.tee (L.beginRecord t before)).poison = false :=
    live_of_live (sealBatch_off _ after).2 hlive
  have hbegun := live_of_live ((L.beginRecord t before).teeAll_off calls).2 hteed
  rw [(L.beginRecord_off t before).2] at hbegun
  exact ⟨hbegun, hteed⟩

theorem record_live {b : Bracket} (hlive : (L.record b).poison = false) : L.poison = false := by
  cases b with
  | pass => exact hlive
  | batch t before calls after => exact (batch_live hlive).1

/-- One bracket. -/
theorem Kept.record (h : Kept lo size log L) (hsmall : size < 2 ^ 32) (b : Bracket)
    (hcalls : ∀ c ∈ b.calls, Staged c ∧ c.Carried lo size)
    (hlive : (L.record b).poison = false) :
    Kept lo size (log ++ b.calls.flatMap items) (L.record b) := by
  cases b with
  | pass =>
      rw [Bracket.calls, List.flatMap_nil, List.append_nil]
      exact ⟨h.enabled, h.booked.congr rfl rfl rfl, h.fresh⟩
  | batch t before calls after =>
      obtain ⟨hopen, hteed⟩ := batch_live hlive
      obtain ⟨hbooked, hrec, hstart⟩ := h.beginRecord hopen t before
      have hall := hbooked.teeAll hsmall hstart hrec hcalls hteed
      have hteedAll := hstart.teeAll fun c hc => (hcalls c hc).1
      have henabled := hteedAll.enabled.trans (((L.beginRecord_off t before).1).trans h.enabled)
      apply (sealBatch_kept henabled hall (hteedAll.recording ▸ hrec) after).resolve_left
      exact fun hpoison => Bool.false_ne_true (hlive.symm.trans hpoison)

/-- A whole recording stands for its calls, one after the other. -/
theorem Kept.recordAll (hsmall : size < 2 ^ 32) {brackets : List Bracket}
    (h : Kept lo size log L)
    (hcalls : ∀ b ∈ brackets, ∀ c ∈ b.calls, Staged c ∧ c.Carried lo size)
    (hlive : (brackets.foldl PassReplay.record L).poison = false) :
    Kept lo size (log ++ (brackets.flatMap Bracket.calls).flatMap items)
      (brackets.foldl PassReplay.record L) := by
  induction brackets using List.reverseRecOn with
  | nil => exact (List.append_nil log).symm ▸ h
  | append_singleton brackets b ih =>
      rw [List.foldl_append] at hlive ⊢
      have hinit := ih (fun b' hb' => hcalls b' (List.mem_append_left _ hb')) (record_live hlive)
      rw [List.flatMap_append, List.flatMap_append, ← List.append_assoc, List.flatMap_singleton]
      exact hinit.record hsmall b (hcalls b (List.mem_append_right _ List.mem_cons_self)) hlive

end Run

end PassReplay

/-! ## Packed emission -/

section Emission

variable {mem : ℕ → UInt8} {lo size : ℕ}

/-- A run with the packed emitter shows the spans that the classic one shows, and ends where
that one ends; its calls are carried by the blob. -/
def SameSpans (mem : ℕ → UInt8) (lo size : ℕ) (packed classic : ScanResult) : Prop :=
  packed.calls.flatMap (BatchCall.spans mem) = classic.calls.flatMap (BatchCall.spans mem) ∧
    { packed with calls := [] } = { classic with calls := [] } ∧
    ∀ c ∈ packed.calls, c.Carried lo size

/-- What a recording is replayed as: the calls it was made of, with packed spans regrouped,
each packed call consistent and inside the blob. -/
def SameScript (lo size : ℕ) (L : PassReplay) (calls : List BatchCall) : Prop :=
  L.shown = calls.flatMap items ∧
    ∀ c ∈ L.calls, ∃ out, L.replayCall c = .ok out ∧ out.Carried lo size

theorem steadyScan_sameSpans {ladder : Option SoaLadder8}
    (hk : ∀ ladder8 ∈ ladder, SoaLadder8.Exact ladder8) {s : Sequencer}
    {entries : List FrameEntry} (hblob : InBlob mem lo size (s.steadyPushes ladder entries)) :
    SameSpans mem lo size (s.steadyScanLadder packedEmitter true ladder entries)
      (s.steadyScanLadder recEmitter true ladder entries) := by
  have hlog : Logged s.w ({ w := s.w, em := pushLog.new } : Scan (List Push)) := ⟨trivial, rfl⟩
  have hchain : Chained s.w (s.steadyPushes ladder entries) :=
    (Logged.scanLadder hk entries.length entries hlog).chained
  have hpacks : Packs mem lo size ⟨s.gen⟩ s.w (s.steadyPushes ladder entries) _ :=
    (packs_pushAll hblob hchain).flush hblob
  have hnone : ∀ em proof, (packedEmitter.flush em proof).1.words = [] := by
    intro em proof
    simp only [packedEmitter]
    split
    · rfl
    · rename_i h
      exact List.length_eq_zero_iff.mp (not_not.mp h)
  refine ⟨?_, s.steadyScanLadder_rest packedEmitter recEmitter ladder entries, ?_⟩
  · have hshown := hpacks.shown
    rw [hnone, extents, List.map_nil, List.append_nil] at hshown
    rw [s.steadyScanLadder_pushes, s.steadyScanLadder_pushes]
    refine hshown.trans ?_
    rw [List.flatMap_append]
    exact (recs_pushAll _).symm
  · rw [s.steadyScanLadder_pushes]
    exact hpacks.carried

theorem recordAll_sameScript (hsmall : size < 2 ^ 32) {L : PassReplay} (hL : L.Blank)
    {brackets : List PassReplay.Bracket}
    (hcalls : ∀ b ∈ brackets, ∀ c ∈ b.calls, Staged c ∧ c.Carried lo size)
    (hlive : (brackets.foldl PassReplay.record L).poison = false) :
    SameScript lo size (brackets.foldl PassReplay.record L)
      (brackets.flatMap PassReplay.Bracket.calls) := by
  have hkept := (hL.kept lo size).recordAll hsmall hcalls hlive
  refine ⟨hkept.booked.shown, fun c hc => ?_⟩
  obtain ⟨out, hout⟩ := PassReplay.replayCall_ok (hkept.booked.sound c hc)
  exact ⟨out, hout, hkept.booked.carried c hc out hout⟩

/-- Packed emission carries the same spans, and so does every recording of it. -/
theorem packed_carries_spans {ladder : Option SoaLadder8}
    (hk : ∀ ladder8 ∈ ladder, SoaLadder8.Exact ladder8) {s : Sequencer}
    {entries : List FrameEntry} (hblob : InBlob mem lo size (s.steadyPushes ladder entries))
    {L : PassReplay} (hL : L.Blank) {brackets : List PassReplay.Bracket}
    (hcalls : ∀ b ∈ brackets, ∀ c ∈ b.calls, Staged c ∧ c.Carried lo size)
    (hlive : (brackets.foldl PassReplay.record L).poison = false) :
    SameSpans mem lo size (s.steadyScanLadder packedEmitter true ladder entries)
        (s.steadyScanLadder recEmitter true ladder entries) ∧
      SameScript lo size (brackets.foldl PassReplay.record L)
        (brackets.flatMap PassReplay.Bracket.calls) :=
  ⟨steadyScan_sameSpans hk hblob, recordAll_sameScript hblob.small hL hcalls hlive⟩

/-- A batch of two packed calls of one span each, the second one fused into the first. -/
def twoFlushes : List PassReplay.Bracket :=
  [.pass, .batch ⟨true, 0, (0, 2)⟩ Sequencer.new
    [.spanBatchPacked ⟨0⟩ 2 1 22 [packWord 0 12 1], .spanBatchPacked ⟨0⟩ 3 1 90 [packWord 0 12 1]]
    Sequencer.new]

theorem packed_carries_spans_fused :
    let s := (Sequencer.runCalls Sequencer.anchored).1
    SameSpans Sequencer.pairsMemory 0 272
        (s.steadyScanLadder packedEmitter true (some ladder8Scalar) Sequencer.pairsTape)
        (s.steadyScanLadder recEmitter true (some ladder8Scalar) Sequencer.pairsTape) ∧
      SameScript 0 272 (twoFlushes.foldl PassReplay.record (PassReplay.newForced true true))
        (twoFlushes.flatMap PassReplay.Bracket.calls) :=
  packed_carries_spans (fun _ h => Option.some.inj h ▸ fun _ _ _ _ _ => rfl) (by decide +kernel)
    ⟨rfl, rfl, rfl, rfl, rfl⟩ (by decide +kernel) (by decide +kernel)

end Emission

end HftProj.Testkit
