import HftProj.Arbitrator.Acts

/-!
# Session visits

A visit is the part of a run since its last `SessionBoundary`. Acts stay within a
visit: they keep the session, and what they stage or deliver was staged before or
comes from the frame at hand.
-/

namespace HftProj.Arbitrator

open HftProj.Lib HftProj.Protocol HftProj.Protocol.Moldudp64 HftProj.Protocol.Packet

def SinkCall.isBoundary : SinkCall → Bool
  | .onEvent (.sessionBoundary _ _ _) => true
  | _ => false

def Output.isBoundary : Output → Bool
  | .sink call => call.isBoundary
  | .intent _ => false

/-- The numbered blocks an input carries for a session. -/
def Input.blocks (session : SessionId) : Input → List (ℕ × List UInt8)
  | .frame bytes _ _ =>
      match parseHeader bytes with
      | .ok hdr => if hdr.session = session then headerBlocks bytes hdr else []
      | .error _ => []
  | _ => []

/-- The numbered blocks carried for a session by the frames among `inputs`. -/
def carried (inputs : List Input) (session : SessionId) : List (ℕ × List UInt8) :=
  inputs.flatMap (Input.blocks session)

theorem carried_append (inputs more : List Input) (session : SessionId) :
    carried (inputs ++ more) session = carried inputs session ++ carried more session :=
  List.flatMap_append

theorem blocks_frame {bytes : List UInt8} {hdr : Header} (h : parseHeader bytes = .ok hdr)
    (feed : FeedId) (nowNs : ℕ) :
    Input.blocks hdr.session (.frame bytes feed nowNs) = headerBlocks bytes hdr := by
  simp [Input.blocks, h]

/-- The numbered payloads a call delivers; a span delivers one for each block. -/
def SinkCall.messages : SinkCall → List (ℕ × List UInt8)
  | .onMsg _ seq msg => [(seq, msg)]
  | .onEvent _ => []
  | .onSpan _ _ _ body blocks =>
      let start := (blocks.head?.map (·.2.1)).getD 0
      blocks.map fun b => (b.1, slice body (b.2.1 - start) (b.2.2 - start))

def messages (calls : List SinkCall) : List (ℕ × List UInt8) := calls.flatMap SinkCall.messages

theorem messages_append (xs ys : List SinkCall) :
    messages (xs ++ ys) = messages xs ++ messages ys := List.flatMap_append

@[simp] theorem messages_nil : messages [] = [] := rfl

@[simp] theorem messages_event (ev : Event) : messages [.onEvent ev] = [] := rfl

@[simp] theorem messages_deliver (proof : LiveFeedProof) (items : List (ℕ × List UInt8)) :
    messages (deliver proof items) = items := by
  induction items with
  | nil => rfl
  | cons i items ih =>
      change i :: messages (deliver proof items) = i :: items
      rw [ih]

namespace Sequencer

/-- The inputs of the current visit; the first of them crossed the boundary. -/
def visitInputs (inputs : List Input) : List Input :=
  Machine.sinceMark Output.isBoundary (Machine.trace step new inputs)

/-- The sink calls since the last boundary. -/
def visitCalls (inputs : List Input) : List SinkCall :=
  sinkCalls (Machine.afterLast Output.isBoundary (run inputs).2)

theorem run_snoc (inputs : List Input) (i : Input) :
    run (inputs ++ [i]) = (run inputs).andThen fun s => s.step i := Machine.run_snoc step new inputs i

theorem visitInputs_snoc (inputs : List Input) (i : Input) :
    visitInputs (inputs ++ [i]) =
      if ((run inputs).1.step i).2.any Output.isBoundary then [i]
      else visitInputs inputs ++ [i] := by
  rw [visitInputs, Machine.trace_snoc, Machine.sinceMark_snoc]
  rfl

theorem visitCalls_snoc {inputs : List Input} {i : Input}
    (h : ((run inputs).1.step i).2.any Output.isBoundary = false) :
    visitCalls (inputs ++ [i]) = visitCalls inputs ++ sinkCalls ((run inputs).1.step i).2 := by
  rw [visitCalls, run_snoc, Traced.andThen_snd,
    Machine.afterLast_append_of_none _ (by simpa using h), sinkCalls_append]
  rfl

theorem visitCalls_snoc_cross {inputs : List Input} {i : Input} {o : Output}
    {more : List Output} (h : ((run inputs).1.step i).2 = o :: more) (ho : o.isBoundary = true)
    (hmore : ∀ x ∈ more, x.isBoundary = false) :
    visitCalls (inputs ++ [i]) = sinkCalls more := by
  rw [visitCalls, run_snoc, Traced.andThen_snd, h, Machine.afterLast_append_mark _ ho hmore]

/-! ## Acts within a visit -/

theorem gapEvidence_calls (s : Sequencer) (x : ℕ) :
    (s.gapEvidence x).2 = [] ∨
      (s.gapEvidence x).2 = [.onEvent (.gapOpened s.w (some x) (wrappingAdd s.gen 1))] := by
  unfold gapEvidence
  split
  · exact Or.inr rfl
  · split <;> exact Or.inl rfl

theorem checkGapClose_calls (s : Sequencer) (gen : ℕ) :
    (s.checkGapClose gen).2 = [] ∨
      (s.checkGapClose gen).2 = [.onEvent (.reAnchored gen s.w)] := by
  unfold checkGapClose
  split
  · exact Or.inr rfl
  · exact Or.inl rfl

theorem handleHeartbeat_calls (s : Sequencer) (seq nowNs : ℕ) :
    (s.handleHeartbeat seq nowNs).2 = [] ∨
      (s.handleHeartbeat seq nowNs).2 =
        [.onEvent (.gapOpened s.w (some seq) (wrappingAdd s.gen 1))] := by
  unfold handleHeartbeat
  dsimp only [count]
  split_ifs
  · exact Or.inl rfl
  · exact Or.inl rfl
  · exact Or.inl rfl
  · exact gapEvidence_calls _ seq
  · exact Or.inl rfl

theorem handleEos_calls (s : Sequencer) (hdr : Header) :
    (s.handleEos hdr).2 = [] ∨
      (s.handleEos hdr).2 = [.onEvent (.endOfSession s.session s.w hdr.seq)] := by
  unfold handleEos
  dsimp only [count]
  split_ifs <;> simp

theorem checkGapClose_window (s : Sequencer) (gen : ℕ) :
    (s.checkGapClose gen).1.window = s.window ∧ (s.checkGapClose gen).1.w = s.w ∧
      (s.checkGapClose gen).1.session = s.session ∧
      (s.checkGapClose gen).1.gen = s.gen := by
  unfold checkGapClose
  split <;> exact ⟨rfl, rfl, rfl, rfl⟩

theorem gapEvidence_session (s : Sequencer) (x : ℕ) :
    (s.gapEvidence x).1.session = s.session := by
  unfold gapEvidence
  split
  · rfl
  · split <;> rfl

theorem not_boundary_of_mem_deliver {proof : LiveFeedProof} {items : List (ℕ × List UInt8)}
    {c : SinkCall} (h : c ∈ deliver proof items) : c.isBoundary = false := by
  obtain ⟨i, _, rfl⟩ := List.mem_map.mp h
  rfl

theorem Act.not_boundary {src : ℕ → List UInt8 → Prop} {s s' : Sequencer}
    {calls : List SinkCall} (h : Act src s calls s') : ∀ c ∈ calls, c.isBoundary = false := by
  have hclose : ∀ t : Sequencer, ∀ c ∈ (t.checkGapClose s.gen).2, c.isBoundary = false := by
    intro t c hc
    rcases t.checkGapClose_calls s.gen with hr | hr
    · simp [hr] at hc
    · rw [hr, List.mem_singleton] at hc
      rw [hc]; rfl
  intro c hc
  cases h with
  | note => simp at hc
  | evidence x _ _ =>
      rcases s.gapEvidence_calls x with hr | hr
      · simp [hr] at hc
      · rw [hr, List.mem_singleton] at hc
        rw [hc]; rfl
  | announce st call _ hcall _ =>
      rcases hcall with rfl | ⟨a, rfl⟩ | ⟨r, rfl⟩
      · simp at hc
      · rw [List.mem_singleton.mp hc]; rfl
      · rw [List.mem_singleton.mp hc]; rfl
  | anchor => simp at hc
  | emit items _ _ => exact not_boundary_of_mem_deliver hc
  | advance hcoh start items win _ _ _ _ _ _ =>
      rcases List.mem_append.mp hc with hc | hc
      · exact not_boundary_of_mem_deliver hc
      · rcases List.mem_append.mp hc with hc | hc
        · exact not_boundary_of_mem_deliver hc
        · exact hclose _ c hc
  | hold => simp at hc

theorem Acts.not_boundary {src : ℕ → List UInt8 → Prop} {s s' : Sequencer}
    {calls : List SinkCall} (h : Acts src s calls s') : ∀ c ∈ calls, c.isBoundary = false := by
  induction h with
  | refl => simp
  | step hact _ ih =>
      intro c hc
      rcases List.mem_append.mp hc with hc | hc
      · exact hact.not_boundary c hc
      · exact ih c hc

/-- An act keeps the session, and what it leaves staged was staged or is carried by the frame. -/
theorem Act.sourced {src : ℕ → List UInt8 → Prop} {s s' : Sequencer} {calls : List SinkCall}
    (hact : Act src s calls s') (hs : s.Coherent) :
    s'.session = s.session ∧ ∀ q d, s'.held q = some d → s.held q = some d ∨ src q d := by
  cases hact with
  | note h => exact ⟨session_of_core h, fun q d hq => .inl (by rwa [held_of_core h] at hq)⟩
  | evidence x hx h =>
      obtain ⟨hwin, hw, -⟩ := s.gapEvidence_window x
      refine ⟨(session_of_core h).trans (s.gapEvidence_session x), fun q d hq => .inl ?_⟩
      rwa [held_of_core h, held, hwin, hw] at hq
  | announce st call _ _ h =>
      exact ⟨(session_of_core h :), fun q d hq => .inl (by rwa [held_of_core h] at hq)⟩
  | anchor first hinit _ h =>
      refine ⟨(session_of_core h :), fun q d hq => ?_⟩
      have hnone : Window.held s.window first q = none :=
        hs.sound.held_eq_none (hs.stagedCount_eq_zero (hs.calm (.inl hinit))) first q
      rw [held_of_core h] at hq
      cases hnone.symm.trans hq
  | emit items _ h => exact ⟨session_of_core h, fun q d hq => .inl (by rwa [held_of_core h] at hq)⟩
  | advance hc start items win hstart _ _ _ hheld h =>
      obtain ⟨hwin, hw, hsess, -⟩ := checkGapClose_window
        { s with w := hc.buffer.firstMissing start, window := win } s.gen
      refine ⟨(session_of_core h).trans hsess, fun q d hq => .inl ?_⟩
      rw [held_of_core h, held, hwin, hw] at hq
      have hq' := (congrFun hheld q).symm.trans hq
      simp only [ReorderBuffer.skipTo] at hq'
      split at hq'
      · exact hq'
      · cases hq'
  | hold hc first ds win _ _ _ _ hsrc _ hheld h =>
      refine ⟨(session_of_core h :), fun q d hq => ?_⟩
      rw [held_of_core h] at hq
      rcases ReorderBuffer.holdAll_sourced ((congrFun hheld q).symm.trans hq) with hb | hmem
      · exact .inl hb
      · exact .inr (hsrc _ hmem)

theorem Acts.sourced {src : ℕ → List UInt8 → Prop} {s s' : Sequencer} {calls : List SinkCall}
    (hacts : Acts src s calls s') (hs : s.Coherent) :
    s'.session = s.session ∧ ∀ q d, s'.held q = some d → s.held q = some d ∨ src q d := by
  induction hacts with
  | refl => exact ⟨rfl, fun q d hq => .inl hq⟩
  | step hact _ ih =>
      obtain ⟨hsess, hsrc⟩ := hact.sourced hs
      obtain ⟨hsess', hsrc'⟩ := ih (hact.coherent hs)
      refine ⟨hsess'.trans hsess, fun q d hq => ?_⟩
      rcases hsrc' q d hq with h | h
      · exact hsrc q d h
      · exact .inr h

/-! ## The visit rule -/

theorem step_any_boundary (s : Sequencer) (i : Input) :
    (s.step i).2.any Output.isBoundary =
      (sinkCalls (s.step i).2).any SinkCall.isBoundary := by
  have hsink : ∀ calls : List SinkCall, (calls.map Output.sink).any Output.isBoundary =
      (sinkCalls (calls.map .sink)).any SinkCall.isBoundary := by
    intro calls
    rw [sinkCalls_sink, List.any_map]
    rfl
  cases i with
  | frame bytes feed nowNs => exact hsink _
  | recoveryIntent nowNs => rfl
  | sealDead reason => exact hsink _

theorem Acts.any_boundary {src : ℕ → List UInt8 → Prop} {s s' : Sequencer}
    {calls : List SinkCall} (h : Acts src s calls s') :
    calls.any SinkCall.isBoundary = false := by
  simpa using h.not_boundary

/-- A call that crosses a boundary emits it first, as the dispatch of a frame. -/
theorem step_cross {s : Sequencer} (hs : s.Coherent) {i : Input} (hr : i.InRange)
    (hany : (sinkCalls (s.step i).2).any SinkCall.isBoundary = true) :
    ∃ bytes feed nowNs hdr t calls, i = .frame bytes feed nowNs ∧
      parseHeader bytes = .ok hdr ∧ s.session ≠ zeroSession ∧ s.session ≠ hdr.session ∧
      t.core = (s.crossTo hdr.session).core ∧ Acts (Carries bytes hdr) t calls (s.step i).1 ∧
      (s.step i).2 = .sink (.onEvent (.sessionBoundary s.session hdr.session
        (wrappingAdd s.gen 1))) :: calls.map .sink := by
  cases i with
  | recoveryIntent nowNs => simp [step] at hany
  | sealDead reason =>
      have hacts : Acts (fun _ _ => False) s _ _ := s.sealDead_acts reason
      simp only [step, sinkCalls_sink, hacts.any_boundary, Bool.false_eq_true] at hany
  | frame bytes feed nowNs =>
      have hcalled := ingest_called hs (show InRange bytes from hr) feed nowNs
      simp only [step, sinkCalls_sink] at hany ⊢
      generalize s.ingest bytes feed nowNs = r at hcalled hany
      cases hcalled with
      | silent => simp at hany
      | frame hhdr hlive hd hacts =>
          cases hd with
          | same => simp [hacts.any_boundary] at hany
          | adopt => simp [hacts.any_boundary] at hany
          | boundary h0 hn ht =>
              exact ⟨bytes, feed, nowNs, _, _, _, rfl, hhdr, h0, hn, ht, hacts, by simp⟩

/-- A property of the current visit holds of every run in range whose steps meet `cond`, if
it holds at the start, starts afresh behind every boundary and is kept by every other call. -/
theorem visit_rule {P : List Input → Sequencer → List SinkCall → Prop}
    {cond : Sequencer → Input → Prop} (hrange : ∀ s i, cond s i → i.InRange)
    (start : P [] new [])
    (cross : ∀ vis s calls bytes feed nowNs hdr t s' calls', s.Coherent → P vis s calls →
      cond s (.frame bytes feed nowNs) → parseHeader bytes = .ok hdr →
      s.session ≠ zeroSession → s.session ≠ hdr.session →
      t.core = (s.crossTo hdr.session).core → Acts (Carries bytes hdr) t calls' s' →
      P [.frame bytes feed nowNs] s' calls')
    (stay : ∀ vis s calls i s' calls', s.Coherent → P vis s calls → cond s i →
      Called s i (s', calls') → calls'.any SinkCall.isBoundary = false →
      P (vis ++ [i]) s' (calls ++ calls'))
    {inputs : List Input} (hc : Machine.Along step cond new inputs) :
    P (visitInputs inputs) (run inputs).1 (visitCalls inputs) := by
  have key : (run inputs).1.Coherent ∧ P (visitInputs inputs) (run inputs).1
      (sinkCalls (Machine.afterLast Output.isBoundary (run inputs).2)) := by
    refine Machine.visit_induction
      (P := fun vis s outs => s.Coherent ∧ P vis s (sinkCalls outs))
      ⟨new_coherent, start⟩ ?_ ?_ inputs hc
    · rintro vis s outs i ⟨hs, hP⟩ hi hany
      rw [step_any_boundary] at hany
      obtain ⟨bytes, feed, nowNs, hdr, t, calls, rfl, hhdr, h0, hn, ht, hacts, hout⟩ :=
        step_cross hs (hrange s i hi) hany
      refine ⟨_, _, hout, rfl, ?_, step_coherent hs (hrange s _ hi), ?_⟩
      · intro o ho
        obtain ⟨c, hc, rfl⟩ := List.mem_map.mp ho
        exact hacts.not_boundary c hc
      · rw [sinkCalls_sink]
        exact cross vis s _ bytes feed nowNs hdr t _ calls hs hP hi hhdr h0 hn ht hacts
    · rintro vis s outs i ⟨hs, hP⟩ hi hany
      rw [step_any_boundary] at hany
      refine ⟨step_coherent hs (hrange s i hi), ?_⟩
      rw [sinkCalls_append]
      exact stay vis s _ i _ _ hs hP hi (step_called hs (hrange s i hi)) hany
  exact key.2

end Sequencer

end HftProj.Arbitrator
