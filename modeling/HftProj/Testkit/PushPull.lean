import HftProj.Testkit.PushResolve

/-!
# Push against pull

Both resolve paths stand for a register file, and the two files part at one kind of message: a
replace of an absent order. The pull leaves its new reference alone, the threads end whatever
order stands there. The paths agree where no message refers to an order that was ended so.
-/

namespace HftProj.Testkit.SigPush

open SigFabric

/-! ## Orders that a replace of an absent order has ended -/

/-- The sequential register file, and the references that a replace of an absent order has
named as its new one since their last birth. -/
structure Sequel where
  file : RegisterFile
  overwritten : ℕ → Bool

namespace Sequel

def step (s : Sequel) (m : Msg) : Sequel where
  file := s.file.step m
  overwritten :=
    match m with
    | .add oref _ _ _ => Function.update s.overwritten oref false
    | .replace oref nref _ _ => Function.update s.overwritten nref (s.file oref = none)
    | _ => s.overwritten

def after (ms : List Msg) : Sequel := ms.foldl step ⟨fun _ => none, fun _ => false⟩

end Sequel

/-- No message refers to a live order whose reference a replace of an absent order has taken. -/
def Untouched (ms : List Msg) : Prop :=
  ∀ pre m post, ms = pre ++ m :: post → ∀ oref, m.ref = some oref →
    (Sequel.after pre).file oref ≠ none → (Sequel.after pre).overwritten oref = false

/-- The register file of the threads behind a list of messages. -/
def threadAfter (ms : List Msg) : RegisterFile := ms.foldl RegisterFile.threadStep fun _ => none

section Files

variable {ms : List Msg} {m : Msg}

theorem Sequel.after_append_singleton :
    Sequel.after (ms ++ [m]) = (Sequel.after ms).step m := by
  rw [after, List.foldl_append, List.foldl_cons, List.foldl_nil]
  rfl

theorem threadAfter_append_singleton :
    threadAfter (ms ++ [m]) = (threadAfter ms).threadStep m := by
  rw [threadAfter, List.foldl_append, List.foldl_cons, List.foldl_nil]
  rfl

theorem Sequel.file_eq (ms : List Msg) : (Sequel.after ms).file = RegisterFile.after ms := by
  induction ms using List.reverseRecOn with
  | nil => rfl
  | append_singleton ms m ih =>
      rw [after_append_singleton, RegisterFile.after_append_singleton, ← ih]
      rfl

/-- The threads' file: the sequential one without the overwritten orders. -/
def Parted (s : Sequel) (g : RegisterFile) : Prop :=
  ∀ id, g id = if s.overwritten id then none else s.file id

/-- A write that goes to both files. -/
theorem Parted.update {s : Sequel} {g : RegisterFile} (h : Parted s g) (id : ℕ)
    {v w : Option Register} {b : Bool} (hv : v = if b then none else w) :
    Parted ⟨Function.update s.file id w, Function.update s.overwritten id b⟩
      (Function.update g id v) := by
  intro id'
  simp only [Function.update_apply]
  split
  · exact hv
  · exact h id'

/-- A message that refers to no overwritten order keeps the files parted so. -/
theorem Parted.step {s : Sequel} {g : RegisterFile} (h : Parted s g)
    (href : ∀ oref, m.ref = some oref → s.file oref ≠ none → s.overwritten oref = false) :
    Parted (s.step m) (g.threadStep m) ∧ m.hit g = m.hit s.file := by
  have hsame : ∀ oref, m.ref = some oref → g oref = s.file oref := by
    intro oref horef
    rw [h oref]
    split
    · next hover =>
        by_contra hne
        rw [href oref horef (Ne.symm hne)] at hover
        cases hover
    · rfl
  have hhit : m.hit g = m.hit s.file := by
    rw [Msg.hit, Msg.hit]
    cases horef : m.ref with
    | none => rfl
    | some oref => exact hsame oref horef
  refine ⟨?_, hhit⟩
  have hkeep : ∀ (id : ℕ) {v : Option Register}, (s.overwritten id = true → v = none) →
      Parted ⟨Function.update s.file id v, s.overwritten⟩ (Function.update g id v) := by
    intro id v hv
    have hupdate := h.update id (v := v) (w := v) (b := s.overwritten id) (by
      split
      · next hover => exact hv hover
      · rfl)
    rwa [Function.update_eq_self] at hupdate
  have hreduce : ∀ (id q : ℕ), m.ref = some id →
      Parted ⟨Function.update s.file id ((s.file id).map (Register.reduce q)), s.overwritten⟩
        (Function.update g id ((g id).map (Register.reduce q))) := by
    intro id q hid
    rw [hsame id hid]
    apply hkeep id
    intro hover
    rw [← hsame id hid, h id, if_pos hover]
    rfl
  cases m with
  | add oref side shares price => exact h.update oref rfl
  | executed oref q => exact hreduce oref q rfl
  | executedPx oref q _ _ => exact hreduce oref q rfl
  | cancel oref q => exact hreduce oref q rfl
  | delete oref => exact hkeep oref fun _ => rfl
  | print price => exact h
  | other => exact h
  | replace oref nref nq npx =>
      have hold := hsame oref rfl
      cases hfile : s.file oref with
      | none =>
          rw [hfile] at hold
          have hupdate := h.update nref (v := none) (w := s.file nref) (b := true) rfl
          rw [Function.update_eq_self] at hupdate
          have hstep : s.step (.replace oref nref nq npx) =
              ⟨s.file, Function.update s.overwritten nref true⟩ := by
            rw [Sequel.step, RegisterFile.step_absent rfl hfile]
            simp only [hfile, decide_true]
          rw [hstep, RegisterFile.threadStep, if_pos hold]
          exact hupdate
      | some r =>
          rw [hfile] at hold
          have hstep : s.step (.replace oref nref nq npx) =
              ⟨Function.update (Function.update s.file oref none) nref (some ⟨r.ask, npx, nq⟩),
                Function.update s.overwritten nref false⟩ := by
            rw [Sequel.step, RegisterFile.step_replace hfile]
            simp only [hfile, reduceCtorEq, decide_false]
          rw [hstep, RegisterFile.threadStep, if_neg (by rw [hold]; exact Option.some_ne_none r),
            RegisterFile.step_replace hold]
          exact (hkeep oref fun _ => rfl).update nref rfl

/-- Along untouched messages the two files resolve alike. -/
theorem Untouched.effects {ms : List (ℕ × Msg)} (h : Untouched (ms.map Prod.snd)) :
    Parted (Sequel.after (ms.map Prod.snd)) (threadAfter (ms.map Prod.snd)) ∧
      threadEffects (fun _ => none) ms = RegisterFile.effects (fun _ => none) ms := by
  induction ms using List.reverseRecOn with
  | nil => exact ⟨fun _ => rfl, rfl⟩
  | append_singleton ms m ih =>
      rw [List.map_append, List.map_singleton] at h ⊢
      have hpre : Untouched (ms.map Prod.snd) := fun pre m' post heq =>
        h pre m' (post ++ [m.2]) (by rw [heq]; simp)
      obtain ⟨hparted, heffects⟩ := ih hpre
      obtain ⟨hnext, hhit⟩ := hparted.step (h _ m.2 [] rfl)
      rw [Sequel.after_append_singleton, threadAfter_append_singleton]
      refine ⟨hnext, ?_⟩
      rw [threadEffects_append, RegisterFile.effects_append, heffects]
      rw [Sequel.file_eq] at hhit
      exact congrArg (fun hit => _ ++ [m.2.effect m.1 hit]) hhit

/-! ## Anomalies -/

/-- An order that the sequential file has not is in no thread either. -/
theorem absent_step {f g : RegisterFile} (h : ∀ id, f id = none → g id = none) (m : Msg) (id : ℕ)
    (hid : f.step m id = none) : g.threadStep m id = none := by
  have hupdate : ∀ (k : ℕ) {f g : RegisterFile} {v w : Option Register},
      (∀ id, f id = none → g id = none) → (v = none → w = none) →
      ∀ id, Function.update f k v id = none → Function.update g k w id = none := by
    intro k f g v w h hv id hid
    rw [Function.update_apply] at hid ⊢
    split at hid
    · next heq =>
        rw [if_pos heq]
        exact hv hid
    · next hne =>
        rw [if_neg hne]
        exact h id hid
  have hreduce : ∀ oref q, (f oref).map (Register.reduce q) = none →
      (g oref).map (Register.reduce q) = none := by
    intro oref q hnone
    rw [Option.map_eq_none_iff] at hnone ⊢
    exact h oref hnone
  cases m with
  | add oref side shares price => exact hupdate oref h (fun hv => by cases hv) id hid
  | executed oref q => exact hupdate oref h (hreduce oref q) id hid
  | executedPx oref q _ _ => exact hupdate oref h (hreduce oref q) id hid
  | cancel oref q => exact hupdate oref h (hreduce oref q) id hid
  | delete oref => exact hupdate oref h (fun _ => rfl) id hid
  | print price => exact h id hid
  | other => exact h id hid
  | replace oref nref nq npx =>
      rw [RegisterFile.threadStep]
      cases hfile : f oref with
      | none =>
          rw [RegisterFile.step_absent rfl hfile] at hid
          rw [if_pos (h oref hfile), Function.update_apply]
          split
          · rfl
          · exact h id hid
      | some r =>
          rw [RegisterFile.step_replace hfile] at hid
          cases hold : g oref with
          | none =>
              have hgone : Function.update g oref none = g := by
                rw [← hold, Function.update_eq_self]
              rw [if_pos rfl, ← hgone]
              exact hupdate nref (hupdate oref h fun _ => rfl) (fun _ => rfl) id hid
          | some r' =>
              rw [if_neg (Option.some_ne_none r'), RegisterFile.step_replace hold]
              exact hupdate nref (hupdate oref h fun _ => rfl) (fun hv => by cases hv) id hid

theorem absent_after (ms : List Msg) (id : ℕ) (h : RegisterFile.after ms id = none) :
    threadAfter ms id = none := by
  induction ms using List.reverseRecOn generalizing id with
  | nil => rfl
  | append_singleton ms m ih =>
      rw [RegisterFile.after_append_singleton] at h
      rw [threadAfter_append_singleton]
      exact absent_step ih m id h

/-- What the threads find no register for may be an anomaly for them alone. -/
theorem anomalies_hit {f g : RegisterFile} (h : ∀ id, f id = none → g id = none) (pos : ℕ)
    (m : Msg) : (m.effect pos (m.hit f)).anomalies ≤ (m.effect pos (m.hit g)).anomalies := by
  cases href : m.ref with
  | none =>
      have hhit : m.hit f = m.hit g := by rw [Msg.hit, Msg.hit, href]; rfl
      rw [hhit]
  | some oref =>
      have hf : m.hit f = f oref := by rw [Msg.hit, href]; rfl
      have hg : m.hit g = g oref := by rw [Msg.hit, href]; rfl
      rw [hf, hg]
      cases hfile : f oref with
      | none => rw [h oref hfile]
      | some r =>
          rw [effect_live pos fun _ => Option.some_ne_none r]
          exact Nat.zero_le _

def anomalies (es : List Effect) : ℕ := (es.map Effect.anomalies).sum

theorem anomalies_append (es : List Effect) (e : Effect) :
    anomalies (es ++ [e]) = anomalies es + e.anomalies := by
  rw [anomalies, List.map_append, List.sum_append, List.map_singleton, List.sum_singleton]
  rfl

theorem effects_append_singleton (ms : List (ℕ × Msg)) (m : ℕ × Msg) :
    RegisterFile.effects (fun _ => none) (ms ++ [m]) = RegisterFile.effects (fun _ => none) ms ++
      [m.2.effect m.1 (m.2.hit (.after (ms.map Prod.snd)))] :=
  RegisterFile.effects_append ..

theorem threadEffects_append_singleton (ms : List (ℕ × Msg)) (m : ℕ × Msg) :
    threadEffects (fun _ => none) (ms ++ [m]) = threadEffects (fun _ => none) ms ++
      [m.2.effect m.1 (m.2.hit (threadAfter (ms.map Prod.snd)))] :=
  threadEffects_append ..

/-- The threads count no fewer anomalies. -/
theorem anomalies_le (ms : List (ℕ × Msg)) :
    anomalies (RegisterFile.effects (fun _ => none) ms) ≤
      anomalies (threadEffects (fun _ => none) ms) := by
  induction ms using List.reverseRecOn with
  | nil => exact Nat.le_refl _
  | append_singleton ms m ih =>
      rw [effects_append_singleton, threadEffects_append_singleton, anomalies_append,
        anomalies_append]
      exact Nat.add_le_add ih (anomalies_hit (absent_after _) m.1 m.2)

/-- Where both files count the same anomalies, no message refers to an overwritten order. -/
theorem untouched_of_anomalies {ms : List (ℕ × Msg)}
    (h : anomalies (RegisterFile.effects (fun _ => none) ms) =
      anomalies (threadEffects (fun _ => none) ms)) : Untouched (ms.map Prod.snd) := by
  induction ms using List.reverseRecOn with
  | nil =>
      intro pre m post heq
      simp at heq
  | append_singleton ms m ih =>
      rw [effects_append_singleton, threadEffects_append_singleton, anomalies_append,
        anomalies_append] at h
      have hle := anomalies_le ms
      have hlast := anomalies_hit (absent_after (ms.map Prod.snd)) m.1 m.2
      have hpre := ih (by omega)
      have hparted := hpre.effects.1
      rw [List.map_append, List.map_singleton]
      intro pre m' post heq oref href hfile
      rcases List.eq_nil_or_concat post with rfl | ⟨post', last, rfl⟩
      · obtain ⟨rfl, hm⟩ := List.append_inj' heq rfl
        cases hm
        cases hover : (Sequel.after (ms.map Prod.snd)).overwritten oref with
        | false => rfl
        | true =>
            have hthread : m.2.hit (threadAfter (ms.map Prod.snd)) = none := by
              rw [Msg.hit, href, Option.bind_some, hparted oref, if_pos hover]
            have hlive : m.2.hit (.after (ms.map Prod.snd)) ≠ none := by
              rw [Msg.hit, href, Option.bind_some, ← Sequel.file_eq]
              exact hfile
            rw [hthread, Msg.effect_absent m.1 href, effect_live m.1 fun _ => hlive] at h
            have hone : Effect.anomaly.anomalies = 1 := rfl
            omega
      · have hcut : ms.map Prod.snd ++ [m.2] = (pre ++ m' :: post') ++ [last] := by
          simpa using heq
        obtain ⟨hpre', -⟩ := List.append_inj' hcut rfl
        exact hpre pre m' post' hpre' oref href hfile

end Files

/-! ## Parity -/

/-- Both paths return the same token columns and the same counts. -/
def Parity (bodies : List (List UInt8)) : Prop :=
  ∃ pull push, resolvePull bodies = .ok pull ∧ resolvePush bodies = .ok push ∧
    pull.tokens = push.tokens ∧ pull.anomalies = push.counts.anomalies ∧
    pull.clamps = push.counts.clamps ∧ pull.zeroRemKeeps = push.counts.zeroRemKeeps

section Bodies

variable {bodies : List (List UInt8)}

theorem Untouched.parity (hvalid : Valid (stream bodies))
    (href : ∀ m ∈ messages (stream bodies), m.2.ref ≠ some 0)
    (h : Untouched ((messages (stream bodies)).map Prod.snd)) : Parity bodies ∨
      resolvePull bodies = .error .capacityOverflow ∧ 2 ^ 57 ≤ (stream bodies).length := by
  obtain ⟨push, hpush, htokens, hanomalies, hclamps, hkeeps⟩ := resolvePush_spec hvalid
  rcases walk_registers hvalid href with ⟨hfull, hbig⟩ | ⟨pull, hpull, -, hsums⟩
  · exact Or.inr ⟨hfull, hbig⟩
  · obtain ⟨htokens', hanomalies', hclamps', hkeeps'⟩ := hsums
    rw [h.effects.2] at htokens hanomalies hclamps hkeeps
    exact Or.inl ⟨pull, push, hpull, hpush, htokens'.trans htokens.symm,
      hanomalies'.trans hanomalies.symm, hclamps'.trans hclamps.symm, hkeeps'.trans hkeeps.symm⟩

theorem Parity.untouched (hvalid : Valid (stream bodies))
    (href : ∀ m ∈ messages (stream bodies), m.2.ref ≠ some 0) (h : Parity bodies) :
    Untouched ((messages (stream bodies)).map Prod.snd) := by
  obtain ⟨push, hpush, -, hanomalies, -⟩ := resolvePush_spec hvalid
  obtain ⟨pull, push', hpull, hpush', -, hsame, -⟩ := h
  rw [hpush] at hpush'
  cases hpush'
  have hwalk : walk (stream bodies) = .ok pull := hpull
  rcases walk_registers hvalid href with ⟨hfull, -⟩ | ⟨pull', hpull', -, -, hanomalies', -⟩
  · rw [hwalk] at hfull
    cases hfull
  · rw [hwalk] at hpull'
    cases hpull'
    apply untouched_of_anomalies
    rw [anomalies, anomalies, ← hanomalies, ← hanomalies', hsame]

end Bodies

/-- For valid bodies without a lookup of reference 0, push and pull agree where no message
refers to a live order whose reference a replace of an absent order has taken, and nowhere
else; a run too long for the pull's table apart. -/
theorem push_pull_parity_iff (bodies : List (List UInt8)) (hvalid : Valid (stream bodies))
    (href : ∀ m ∈ messages (stream bodies), m.2.ref ≠ some 0) :
    (Untouched ((messages (stream bodies)).map Prod.snd) → Parity bodies ∨
      resolvePull bodies = .error .capacityOverflow ∧ 2 ^ 57 ≤ (stream bodies).length) ∧
    (Parity bodies → Untouched ((messages (stream bodies)).map Prod.snd)) :=
  ⟨Untouched.parity hvalid href, Parity.untouched hvalid href⟩

/-- The common header, on stock 0 at time 0. -/
def header (t : Char) : List UInt8 := t.toUInt8 :: List.replicate 10 0

def be8 (n : UInt8) : List UInt8 := List.replicate 7 0 ++ [n]

def be4 (n : UInt8) : List UInt8 := [0, 0, 0, n]

/-- A bid for 10 at 100 on order 5. -/
def addFive : List UInt8 :=
  header 'A' ++ be8 5 ++ ['B'.toUInt8] ++ be4 10 ++ be8 0 ++ be4 100

/-- A replace of order 9 by order 5. -/
def replaceNine : List UInt8 := header 'U' ++ be8 9 ++ be8 5 ++ be4 1 ++ be4 100

/-- An execution of 3 on order 5. -/
def executeFive : List UInt8 := header 'E' ++ be8 5 ++ be4 3 ++ be8 0

/-- One message a body. -/
def framed (msg : List UInt8) : List UInt8 := 0 :: UInt8.ofNat msg.length :: msg

/-- The order, a replace of an absent order onto its reference, and an execution of it. -/
def takenFive : List (List UInt8) := [framed addFive, framed replaceNine, framed executeFive]

theorem stream_takenFive :
    stream takenFive = [(1, addFive), (2, replaceNine), (3, executeFive)] := by
  have hunits : takenFive.flatMap units = [addFive, replaceNine, executeFive] := by
    simp only [takenFive, List.flatMap_cons, List.flatMap_nil, framed]
    rw [units_single (by decide), units_single (by decide), units_single (by decide)]
    rfl
  rw [stream, hunits]
  rfl

theorem valid_takenFive : Valid (stream takenFive) := by
  rw [stream_takenFive]
  intro u hu
  simp only [List.mem_cons, List.not_mem_nil, or_false] at hu
  rcases hu with rfl | rfl | rfl <;> rfl

theorem messages_takenFive : messages (stream takenFive) =
    [(1, .add 5 66 10 100), (2, .replace 9 5 1 100), (3, .executed 5 3)] := by
  rw [stream_takenFive]
  decide

theorem push_pull_parity_iff_takenFive :
    (Untouched ((messages (stream takenFive)).map Prod.snd) → Parity takenFive ∨
      resolvePull takenFive = .error .capacityOverflow ∧ 2 ^ 57 ≤ (stream takenFive).length) ∧
    (Parity takenFive → Untouched ((messages (stream takenFive)).map Prod.snd)) := by
  apply push_pull_parity_iff takenFive valid_takenFive
  rw [messages_takenFive]
  decide

/-- The execution resolves in the pull and is an anomaly of the push. -/
theorem taken_order_parts_the_paths : ¬Parity takenFive := by
  intro h
  have huntouched := h.untouched valid_takenFive (by rw [messages_takenFive]; decide)
  rw [messages_takenFive] at huntouched
  have hover := huntouched [.add 5 66 10 100, .replace 9 5 1 100] (.executed 5 3) [] rfl 5 rfl
    (by decide)
  revert hover
  decide

end HftProj.Testkit.SigPush
