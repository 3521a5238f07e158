import HftProj.Testkit.BakeLayout

/-!
# What a bake that returns has read

Whatever the bodies, a bake that returns has met no unit without a type header, has decoded
every unit, and has laid the span columns out in message order.
-/

namespace HftProj.Testkit.SigFabric

open HftProj.Lib
open SpanField (Cpu)

/-! ## The two decodes -/

/-- The nine types of a book message. -/
def bookTypes : List UInt8 :=
  ['A'.toUInt8, 'F'.toUInt8, 'E'.toUInt8, 'C'.toUInt8, 'X'.toUInt8, 'D'.toUInt8, 'U'.toUInt8,
    'P'.toUInt8, 'Q'.toUInt8]

theorem ty36_other {t : UInt8} (h : ty36 t = 9) : t ∉ bookTypes := by
  have hbook : ∀ t ∈ bookTypes, ty36 t ≠ 9 := List.forall_iff_forall_mem.mp (by decide)
  exact fun hmem => hbook t hmem h

/-- A message of no book type resolves to nothing. -/
theorem decode_other {msg : List UInt8} (h : ty36 (msg.getD 0 0) = 9) : decode msg = .ok .other := by
  have hother := ty36_other h
  simp only [bookTypes, List.mem_cons, List.not_mem_nil, or_false, not_or] at hother
  simp only [decode, hother, false_or, if_false]

theorem reaching_isOk (msg : List UInt8) (n : ℕ) (m : Msg) :
    (reaching msg n m).isOk = decide (n ≤ msg.length) := by
  rw [reaching]
  split
  · rename_i h
    exact (decide_eq_true h).symm
  · rename_i h
    exact (decide_eq_false h).symm

theorem within_isOk (msg : List UInt8) (n : ℕ) (d : SigPush.Dec) :
    (SigPush.within msg n d).isOk = decide (n ≤ msg.length) := by
  rw [SigPush.within]
  split
  · rename_i h
    exact (decide_eq_true h).symm
  · rename_i h
    exact (decide_eq_false h).symm

/-- Both decodes fail on the same messages. -/
theorem decodeDec_isOk (pos : ℕ) (msg : List UInt8) :
    (SigPush.decodeDec pos msg).isOk = (decode msg).isOk := by
  simp only [SigPush.decodeDec, decode, apply_ite Except.isOk, reaching_isOk, within_isOk]
  rfl

theorem isOk_iff {α : Type} {x : Except Fault α} : x.isOk = true ↔ ∃ a, x = .ok a := by
  cases x with
  | error e => simp [Except.isOk, Except.toBool]
  | ok a => simp [Except.isOk, Except.toBool]

/-- Every unit that has a type header decodes. -/
def HeadedDecode (us : List (ℕ × List UInt8)) : Prop :=
  ∀ u ∈ us, 3 ≤ u.2.length → ∃ m, decode u.2 = .ok m

theorem HeadedDecode.snoc {us : List (ℕ × List UInt8)} {u : ℕ × List UInt8}
    (h : HeadedDecode us) (hu : 3 ≤ u.2.length → ∃ m, decode u.2 = .ok m) :
    HeadedDecode (us ++ [u]) := by
  intro v hv
  rcases List.mem_append.mp hv with hmem | hlast
  · exact h v hmem
  · rw [List.mem_singleton.mp hlast]
    exact hu

/-- A resolve that returns has decoded every unit with a type header. -/
theorem resolve_decodes {push : Bool} {bodies : List (List UInt8)} {r : ResolveOut}
    (h : resolve push bodies = .ok r) : HeadedDecode (stream bodies) := by
  cases push with
  | true =>
      obtain ⟨p, hrun, -⟩ := Fallible.bind_eq_ok.mp h
      obtain ⟨dec, hdec, -⟩ := Fallible.bind_eq_ok.mp hrun
      refine Fallible.foldlM_keeps (P := fun us _ => HeadedDecode us) nofun ?_ hdec
      intro pre u _ s s' _ hpre hstep
      apply hpre.snoc
      intro hlen
      rw [SigPush.decodeUnit, if_neg (Nat.not_lt.mpr hlen)] at hstep
      obtain ⟨d, hd, -⟩ := Fallible.bind_eq_ok.mp hstep
      rw [← isOk_iff, ← decodeDec_isOk u.1, hd]
      rfl
  | false =>
      obtain ⟨s, hrun, -⟩ := Fallible.bind_eq_ok.mp h
      refine Fallible.foldlM_keeps (P := fun us _ => HeadedDecode us) nofun ?_ hrun
      intro pre u _ s s' _ hpre hstep
      apply hpre.snoc
      intro hlen
      rw [Pull.step, if_neg (Nat.not_lt.mpr hlen)] at hstep
      obtain ⟨m, hm, -⟩ := Fallible.bind_eq_ok.mp hstep
      exact ⟨m, hm⟩

/-! ## The walks -/

section Walks

variable {us : List (ℕ × List UInt8)} {u : ℕ × List UInt8} {h : Histogram} {ts : List Token}
variable {e : Epilogue}

theorem headed_snoc (us : List (ℕ × List UInt8)) (u : ℕ × List UInt8) :
    headed (us ++ [u]) = if 3 ≤ u.2.length then headed us ++ [u.2] else headed us := by
  rw [headed, List.map_append, List.filter_append, List.map_singleton]
  split
  · rename_i hlen
    exact congrArg (headed us ++ ·) (List.filter_cons_of_pos (decide_eq_true hlen))
  · rename_i hlen
    have hnone : [u.2].filter (fun m => 3 ≤ m.length) = [] :=
      List.filter_cons_of_neg (by simpa using hlen)
    rw [hnone]
    exact List.append_nil _

theorem headed_length_le (us : List (ℕ × List UInt8)) : (headed us).length ≤ us.length := by
  have hle := List.length_filter_le (fun m : List UInt8 => decide (3 ≤ m.length)) (us.map Prod.snd)
  rwa [List.length_map] at hle

/-- All units have a type header where as many are headed. -/
theorem headed_of_length (h : us.length ≤ (headed us).length) :
    (∀ u ∈ us, 3 ≤ u.2.length) ∧ headed us = us.map Prod.snd := by
  have hle := headed_length_le us
  have hall : headed us = us.map Prod.snd := by
    apply List.filter_sublist.eq_of_length
    show (headed us).length = _
    rw [List.length_map]
    omega
  refine ⟨fun u hu => ?_, hall⟩
  have hmem : u.2 ∈ headed us := by
    rw [hall]
    exact List.mem_map_of_mem hu
  exact of_decide_eq_true (List.mem_filter.mp hmem).2

theorem headed_eq (h : ∀ u ∈ us, 3 ≤ u.2.length) : headed us = us.map Prod.snd := by
  apply List.filter_eq_self.mpr
  intro m hm
  obtain ⟨u, hu, rfl⟩ := List.mem_map.mp hm
  exact decide_eq_true (h u hu)

/-- Pass 1 counts every unit. -/
theorem histogram_msgs (hrun : us.foldlM Histogram.step .new = .ok h) : h.nMsgs = us.length := by
  refine Fallible.foldlM_keeps (P := fun us (h : Histogram) => h.nMsgs = us.length) rfl ?_ hrun
  intro pre u _ h h' _ hmsgs hstep
  have henter : ∀ (h : Histogram) (loc : ℕ), (h.enter loc).nMsgs = h.nMsgs := by
    intro h loc
    rw [Histogram.enter]
    split <;> rfl
  rw [List.length_append, ← hmsgs]
  rw [Histogram.step] at hstep
  split at hstep
  · cases hstep
    rfl
  · obtain ⟨c, -, hc⟩ := Fallible.bind_eq_ok.mp hstep
    cases hc
    exact henter _ _

/-- The epilogue pushes one row of the span columns for each unit with a type header. -/
structure Pushed (h : Histogram) (ts : List Token) (us : List (ℕ × List UInt8)) (e : Epilogue) :
    Prop where
  length : e.toks.length = h.nMsgs
  enough : (headed us).length ≤ ts.length
  rest : e.rest = ts.drop (headed us).length
  cols : e.cols = List.zipWith spanRow (headed us) ts

theorem pushed_new (h : Histogram) (ts : List Token) : Pushed h ts [] (.new h ts) :=
  ⟨List.length_replicate, Nat.zero_le _, rfl, rfl⟩

theorem Pushed.step {e' : Epilogue} (hp : Pushed h ts us e) (hstep : e.step h u = .ok e') :
    Pushed h ts (us ++ [u]) e' := by
  rw [Epilogue.step] at hstep
  split at hstep
  · rename_i hshort
    cases hstep
    have hsame : headed (us ++ [u]) = headed us := by
      rw [headed_snoc, if_neg (Nat.not_le.mpr hshort)]
    exact ⟨hp.length, hsame ▸ hp.enough, hsame ▸ hp.rest, hsame ▸ hp.cols⟩
  · rename_i hlong
    have hnext : headed (us ++ [u]) = headed us ++ [u.2] := by
      rw [headed_snoc, if_pos (Nat.not_lt.mp hlong)]
    obtain ⟨off, -, hstep⟩ := Fallible.bind_eq_ok.mp hstep
    obtain ⟨c, -, hstep⟩ := Fallible.bind_eq_ok.mp hstep
    have hrest := hp.rest
    cases hshape : e.rest with
    | nil =>
        rw [hshape] at hstep
        cases hstep
    | cons t rest =>
        rw [hshape] at hstep hrest
        have hlt : (headed us).length < ts.length := by
          by_contra hge
          rw [List.drop_eq_nil_of_le (Nat.not_lt.mp hge)] at hrest
          cases hrest
        rw [List.drop_eq_getElem_cons hlt] at hrest
        obtain ⟨ht, htail⟩ := List.cons.inj hrest
        dsimp only at hstep
        split at hstep
        · cases hstep
          constructor
          · exact (List.length_set ..).trans hp.length
          · rw [hnext, List.length_append]
            exact hlt
          · rw [hnext, List.length_append]
            exact htail
          · rw [hnext, zipWith_snoc spanRow (List.getElem?_eq_getElem hlt), ← ht, ← hp.cols]
        · cases hstep

theorem epilogue_pushed (hrun : us.foldlM (Epilogue.step h) (.new h ts) = .ok e) :
    Pushed h ts us e := by
  refine Fallible.foldlM_keeps (P := fun us e => Pushed h ts us e) (pushed_new h ts) ?_ hrun
  intro pre u _ s s' _ hp hstep
  exact hp.step hstep

end Walks

/-! ## The bake -/

section Bake

variable {cpu : Cpu} {bodies : List (List UInt8)} {push : Bool} {f : Fabric}

/-- The stages of a bake that returns. -/
theorem bake_stages (hbake : bakeSigFabricForced cpu bodies push = .ok f) :
    ∃ h e s, (stream bodies).foldlM Histogram.step .new = .ok h ∧
      resolve push bodies = .ok f.resolved ∧
      (stream bodies).foldlM (Epilogue.step h) (.new h f.resolved.tokens) = .ok e ∧
      h.nMsgs ≤ e.cols.length ∧
      (List.range h.nLocates).foldlM (Commits.step cpu e.toks (tokOff h.counts)) .new = .ok s ∧
      f = {
        nMsgs := h.nMsgs
        nLocates := h.nLocates
        tokCounts := h.counts
        tokOff := tokOff h.counts
        toks := e.toks
        sigOff := s.sigOff ++ [s.sigs.length % 2 ^ 32]
        sigs := s.sigs
        sig0 := s.sig0
        states := s.states
        digest := sealDigest s.digest s.gAll
        globalSigs := chunkSigs cpu e.toks
        globalSig := sigTotal (chunkSigs cpu e.toks)
        chunks := s.chunks
        resolved := f.resolved
        resolvePush := push
        span := spanLayer cpu ((chunksOf SpanField.chunkLen (e.cols.take h.nMsgs)).map fun p =>
          (SpanField.foldCols cpu p 0).1) } := by
  obtain ⟨h, hh, hbake⟩ := Fallible.bind_eq_ok.mp hbake
  obtain ⟨r, hr, hbake⟩ := Fallible.bind_eq_ok.mp hbake
  obtain ⟨e, he, hbake⟩ := Fallible.bind_eq_ok.mp hbake
  obtain ⟨recs, hrecs, hbake⟩ := Fallible.bind_eq_ok.mp hbake
  obtain ⟨s, hs, hbake⟩ := Fallible.bind_eq_ok.mp hbake
  rw [spanRecords] at hrecs
  split at hrecs
  · rename_i hcols
    cases hrecs
    cases hbake
    exact ⟨h, e, s, hh, hr, he, hcols, hs, rfl⟩
  · cases hrecs

/-- A bake that returns: every unit decodes, and the span layer is that of the rows in message
order. -/
theorem bake_span (hbake : bakeSigFabricForced cpu bodies push = .ok f) :
    Decodes (stream bodies) ∧ resolve push bodies = .ok f.resolved ∧
      f.nMsgs = (stream bodies).length ∧ f.toks.length = (stream bodies).length ∧
      (stream bodies).length ≤ f.resolved.tokens.length ∧
      f.span = spanLayer cpu ((chunksOf SpanField.chunkLen (List.zipWith spanRow
        ((stream bodies).map Prod.snd) f.resolved.tokens)).map fun p =>
          (SpanField.foldCols cpu p 0).1) := by
  obtain ⟨h, e, s, hh, hr, he, hcols, hs, hf⟩ := bake_stages hbake
  have hp := epilogue_pushed he
  have hmsgs := histogram_msgs hh
  have hlen : e.cols.length ≤ (headed (stream bodies)).length := by
    rw [hp.cols, List.length_zipWith]
    exact Nat.min_le_left _ _
  obtain ⟨hhead, hall⟩ := headed_of_length (by omega : (stream bodies).length ≤ _)
  have henough := hp.enough
  have htake : e.cols.take h.nMsgs =
      List.zipWith spanRow ((stream bodies).map Prod.snd) f.resolved.tokens := by
    rw [← hall, ← hp.cols]
    apply List.take_of_length_le
    rw [hmsgs]
    exact hlen.trans (headed_length_le _)
  refine ⟨fun u hu => ⟨hhead u hu, resolve_decodes hr u hu (hhead u hu)⟩, hr, ?_, ?_, ?_, ?_⟩
  · rw [hf]
    exact hmsgs
  · rw [hf]
    exact hp.length.trans hmsgs
  · rw [hall, List.length_map] at henough
    exact henough
  · rw [← htake]
    exact congrArg Fabric.span hf

end Bake

end HftProj.Testkit.SigFabric
