import HftProj.Testkit.BakeRuns

/-!
# Tokens without their positions

A resolve path walks the messages with a state that no position enters, and a token shows its
wire position only where it prints. So a message of no book type can be left out, and the keys
of the tokens increase.
-/

namespace HftProj.Testkit.SigFabric

open HftProj.Lib

/-! ## Shapes -/

/-- A token but for the position that it prints. -/
structure Shape where
  prints : Bool
  pv : ℕ
  d0 : BitVec 64
  d1 : BitVec 64

/-- The shape of the empty token. -/
def Shape.silent : Shape := ⟨false, 0, 0, 0⟩

/-- The token at a position. -/
def Shape.at (s : Shape) (pos : ℕ) : Token := ⟨if s.prints then pos else 0, s.pv, s.d0, s.d1⟩

/-- The shape of a token. -/
def shapeOf (t : Token) : Shape := ⟨decide (t.sv ≠ 0), t.pv, t.d0, t.d1⟩

theorem shapeOf_at (s : Shape) {pos : ℕ} (h : pos ≠ 0) : shapeOf (s.at pos) = s := by
  obtain ⟨prints, pv, d0, d1⟩ := s
  cases prints with
  | true => simp [shapeOf, Shape.at, h]
  | false => simp [shapeOf, Shape.at]

theorem volume_shape (prints : Bool) (pv : ℕ) (ask : Bool) (delta : BitVec 64) :
    ∃ s : Shape, ∀ pos, Token.volume (if prints then pos else 0) pv ask delta = s.at pos := by
  cases ask with
  | true => exact ⟨⟨prints, pv, 0, delta⟩, fun _ => rfl⟩
  | false => exact ⟨⟨prints, pv, delta, 0⟩, fun _ => rfl⟩

/-- What a message resolves to has a shape. -/
theorem effect_shape (m : Msg) (hit : Option Register) :
    ∃ s : Shape, ∀ pos, (m.effect pos hit).token = s.at pos := by
  have hzero (pv : ℕ) (ask : Bool) (delta : BitVec 64) :
      ∃ s : Shape, ∀ pos, Token.volume 0 pv ask delta = s.at pos := volume_shape false pv ask delta
  cases hit with
  | none =>
      cases m with
      | add _ side shares _ => exact hzero 0 _ _
      | print price => exact ⟨⟨true, price, 0, 0⟩, fun _ => rfl⟩
      | executed _ _ => exact ⟨.silent, fun _ => rfl⟩
      | executedPx _ _ _ _ => exact ⟨.silent, fun _ => rfl⟩
      | cancel _ _ => exact ⟨.silent, fun _ => rfl⟩
      | delete _ => exact ⟨.silent, fun _ => rfl⟩
      | replace _ _ _ _ => exact ⟨.silent, fun _ => rfl⟩
      | other => exact ⟨.silent, fun _ => rfl⟩
  | some r =>
      cases m with
      | add _ side shares _ => exact hzero 0 _ _
      | print price => exact ⟨⟨true, price, 0, 0⟩, fun _ => rfl⟩
      | executed _ q => exact volume_shape true r.px r.ask _
      | executedPx _ q printable execPx =>
          exact volume_shape (isPrint printable) (if isPrint printable then execPx else 0) r.ask _
      | cancel _ q => exact hzero 0 _ _
      | delete _ => exact hzero 0 _ _
      | replace _ _ nq _ => exact hzero 0 _ _
      | other => exact ⟨.silent, fun _ => rfl⟩

/-! ## The pull -/

section Pull

variable {s s' t : Pull} {m : Msg} {loc : ℕ}

/-- Two pulls with the same cache resolve a message alike, wherever they stand. -/
theorem resolve_shape (h : s.cache = s'.cache) (pos pos' : ℕ)
    (ht : s.resolve pos loc m = .ok t) :
    ∃ t' sh, s'.resolve pos' loc m = .ok t' ∧ t'.cache = t.cache ∧
      t.tokens = s.tokens ++ [Shape.at sh pos] ∧ t'.tokens = s'.tokens ++ [sh.at pos'] := by
  have hanomaly (c : OrderCache) : ∃ t' sh, Except.ok (s'.anomaly c) = (.ok t' : Except Fault Pull) ∧
      t'.cache = (s.anomaly c).cache ∧ (s.anomaly c).tokens = s.tokens ++ [Shape.at sh pos] ∧
        t'.tokens = s'.tokens ++ [sh.at pos'] :=
    ⟨_, .silent, rfl, rfl, rfl, rfl⟩
  cases m with
  | add oref side shares price =>
      obtain ⟨c, hc, ht⟩ := Fallible.bind_eq_ok.mp ht
      cases ht
      obtain ⟨sh, hsh⟩ := volume_shape false 0 (sideAsk side) (BitVec.ofNat 64 shares)
      refine ⟨_, sh, Fallible.bind_eq_ok.mpr ⟨c, h ▸ hc, rfl⟩, rfl, ?_, ?_⟩
      · exact congrArg (s.tokens ++ [·]) (hsh pos)
      · exact congrArg (s'.tokens ++ [·]) (hsh pos')
  | executed oref q =>
      obtain ⟨⟨entry, c⟩, hprobe, ht⟩ := Fallible.bind_eq_ok.mp ht
      cases entry with
      | none =>
          cases ht
          obtain ⟨t', sh, ht', hrest⟩ := hanomaly c
          exact ⟨t', sh, Fallible.bind_eq_ok.mpr ⟨(none, c), h ▸ hprobe, ht'⟩, hrest⟩
      | some entry =>
          obtain ⟨l, side, rem, rpx⟩ := entry
          obtain ⟨c', hc', ht⟩ := Fallible.bind_eq_ok.mp ht
          cases ht
          obtain ⟨sh, hsh⟩ := volume_shape true rpx (sideAsk side) (-BitVec.ofNat 64 (min q rem))
          refine ⟨_, sh, Fallible.bind_eq_ok.mpr ⟨(some (l, side, rem, rpx), c), h ▸ hprobe,
            Fallible.bind_eq_ok.mpr ⟨c', hc', rfl⟩⟩, rfl, ?_, ?_⟩
          · exact congrArg (s.tokens ++ [·]) (hsh pos)
          · exact congrArg (s'.tokens ++ [·]) (hsh pos')
  | executedPx oref q printable execPx =>
      obtain ⟨⟨entry, c⟩, hprobe, ht⟩ := Fallible.bind_eq_ok.mp ht
      cases entry with
      | none =>
          cases ht
          obtain ⟨t', sh, ht', hrest⟩ := hanomaly c
          exact ⟨t', sh, Fallible.bind_eq_ok.mpr ⟨(none, c), h ▸ hprobe, ht'⟩, hrest⟩
      | some entry =>
          obtain ⟨l, side, rem, rpx⟩ := entry
          obtain ⟨c', hc', ht⟩ := Fallible.bind_eq_ok.mp ht
          cases ht
          obtain ⟨sh, hsh⟩ := volume_shape (isPrint printable)
            (if isPrint printable then execPx else 0) (sideAsk side)
            (-BitVec.ofNat 64 (min q rem))
          refine ⟨_, sh, Fallible.bind_eq_ok.mpr ⟨(some (l, side, rem, rpx), c), h ▸ hprobe,
            Fallible.bind_eq_ok.mpr ⟨c', hc', rfl⟩⟩, rfl, ?_, ?_⟩
          · exact congrArg (s.tokens ++ [·]) (hsh pos)
          · exact congrArg (s'.tokens ++ [·]) (hsh pos')
  | cancel oref q =>
      obtain ⟨⟨entry, c⟩, hprobe, ht⟩ := Fallible.bind_eq_ok.mp ht
      cases entry with
      | none =>
          cases ht
          obtain ⟨t', sh, ht', hrest⟩ := hanomaly c
          exact ⟨t', sh, Fallible.bind_eq_ok.mpr ⟨(none, c), h ▸ hprobe, ht'⟩, hrest⟩
      | some entry =>
          obtain ⟨l, side, rem, rpx⟩ := entry
          obtain ⟨c', hc', ht⟩ := Fallible.bind_eq_ok.mp ht
          cases ht
          obtain ⟨sh, hsh⟩ := volume_shape false 0 (sideAsk side) (-BitVec.ofNat 64 (min q rem))
          refine ⟨_, sh, Fallible.bind_eq_ok.mpr ⟨(some (l, side, rem, rpx), c), h ▸ hprobe,
            Fallible.bind_eq_ok.mpr ⟨c', hc', rfl⟩⟩, rfl, ?_, ?_⟩
          · exact congrArg (s.tokens ++ [·]) (hsh pos)
          · exact congrArg (s'.tokens ++ [·]) (hsh pos')
  | delete oref =>
      obtain ⟨⟨entry, c⟩, hprobe, ht⟩ := Fallible.bind_eq_ok.mp ht
      cases entry with
      | none =>
          cases ht
          obtain ⟨t', sh, ht', hrest⟩ := hanomaly c
          exact ⟨t', sh, Fallible.bind_eq_ok.mpr ⟨(none, c), h ▸ hprobe, ht'⟩, hrest⟩
      | some entry =>
          obtain ⟨l, side, rem, rpx⟩ := entry
          obtain ⟨c', hc', ht⟩ := Fallible.bind_eq_ok.mp ht
          cases ht
          obtain ⟨sh, hsh⟩ := volume_shape false 0 (sideAsk side) (-BitVec.ofNat 64 rem)
          refine ⟨_, sh, Fallible.bind_eq_ok.mpr ⟨(some (l, side, rem, rpx), c), h ▸ hprobe,
            Fallible.bind_eq_ok.mpr ⟨c', hc', rfl⟩⟩, rfl, ?_, ?_⟩
          · exact congrArg (s.tokens ++ [·]) (hsh pos)
          · exact congrArg (s'.tokens ++ [·]) (hsh pos')
  | replace oref nref nq npx =>
      obtain ⟨⟨entry, c⟩, hprobe, ht⟩ := Fallible.bind_eq_ok.mp ht
      cases entry with
      | none =>
          cases ht
          obtain ⟨t', sh, ht', hrest⟩ := hanomaly c
          exact ⟨t', sh, Fallible.bind_eq_ok.mpr ⟨(none, c), h ▸ hprobe, ht'⟩, hrest⟩
      | some entry =>
          obtain ⟨l, side, rem, rpx⟩ := entry
          obtain ⟨c', hc', ht⟩ := Fallible.bind_eq_ok.mp ht
          obtain ⟨c'', hc'', ht⟩ := Fallible.bind_eq_ok.mp ht
          cases ht
          obtain ⟨sh, hsh⟩ := volume_shape false 0 (sideAsk side)
            (BitVec.ofNat 64 nq - BitVec.ofNat 64 rem)
          refine ⟨_, sh, Fallible.bind_eq_ok.mpr ⟨(some (l, side, rem, rpx), c), h ▸ hprobe,
            Fallible.bind_eq_ok.mpr ⟨c', hc', Fallible.bind_eq_ok.mpr ⟨c'', hc'', rfl⟩⟩⟩, rfl, ?_, ?_⟩
          · exact congrArg (s.tokens ++ [·]) (hsh pos)
          · exact congrArg (s'.tokens ++ [·]) (hsh pos')
  | print price =>
      cases ht
      exact ⟨_, ⟨true, price, 0, 0⟩, rfl, h.symm, rfl, rfl⟩
  | other =>
      cases ht
      exact ⟨_, .silent, rfl, h.symm, rfl, rfl⟩

end Pull

/-! ## Walks of shapes -/

/-- What a resolve path walks with: the threads' register file, or the cache. -/
structure ShapeState where
  file : RegisterFile
  cache : OrderCache

def ShapeState.new : ShapeState := ⟨fun _ => none, .new 16⟩

/-- The shape that a path gives a message. -/
def shapeStep (push : Bool) (s : ShapeState) (msg : List UInt8) :
    Except Fault (ShapeState × Shape) := do
  let m ← decode msg
  if push then
    return ({ s with file := s.file.threadStep m }, shapeOf (m.effect 1 (m.hit s.file)).token)
  else do
    let t ← Pull.resolve ⟨s.cache, [], 0, 0, 0⟩ 1 (locOf msg) m
    return ({ s with cache := t.cache }, shapeOf (t.tokens.headD .empty))

@[grind =]
def shapesFrom (push : Bool) (s : ShapeState) : List (List UInt8) → Except Fault (List Shape)
  | [] => .ok []
  | msg :: ms => do
      let (next, sh) ← shapeStep push s msg
      let rest ← shapesFrom push next ms
      return sh :: rest

/-- The tokens of some shapes along a stream. -/
def tokensAlong (us : List (ℕ × List UInt8)) (shapes : List Shape) : List Token :=
  List.zipWith (fun u sh => Shape.at sh u.1) us shapes

section Walks

variable {push : Bool} {s s' : ShapeState} {ms : List (List UInt8)} {shapes : List Shape}
variable {us : List (ℕ × List UInt8)} {bodies : List (List UInt8)}

theorem shapesFrom_cons {msg : List UInt8} :
    shapesFrom push s (msg :: ms) = .ok shapes ↔
      ∃ next sh rest, shapeStep push s msg = .ok (next, sh) ∧ shapesFrom push next ms = .ok rest ∧
        shapes = sh :: rest := by
  constructor
  · intro h
    obtain ⟨⟨next, sh⟩, hstep, h⟩ := Fallible.bind_eq_ok.mp h
    obtain ⟨rest, hrest, h⟩ := Fallible.bind_eq_ok.mp h
    cases h
    exact ⟨next, sh, rest, hstep, hrest, rfl⟩
  · rintro ⟨next, sh, rest, hstep, hrest, rfl⟩
    exact Fallible.bind_eq_ok.mpr ⟨(next, sh), hstep, Fallible.bind_eq_ok.mpr ⟨rest, hrest, rfl⟩⟩

theorem shapesFrom_length (h : shapesFrom push s ms = .ok shapes) : shapes.length = ms.length := by
  induction ms generalizing s shapes with
  | nil =>
      cases h
      rfl
  | cons msg ms ih =>
      obtain ⟨next, sh, rest, -, hrest, rfl⟩ := shapesFrom_cons.mp h
      exact congrArg (· + 1) (ih hrest)

theorem stream_positions (bodies : List (List UInt8)) :
    (stream bodies).map Prod.fst = List.range' 1 (stream bodies).length := by
  rw [stream, List.map_map, List.length_map, List.length_zipIdx]
  exact List.zipIdx_map_snd 1 _

theorem stream_pos {u : ℕ × List UInt8} (hu : u ∈ stream bodies) : u.1 ≠ 0 := by
  have hmem : u.1 ∈ (stream bodies).map Prod.fst := List.mem_map_of_mem hu
  rw [stream_positions, List.mem_range'_1] at hmem
  omega

/-- The effects of the threads have the shapes of the push walk. -/
theorem push_shapes (c : OrderCache) (hdecodes : Decodes us) (hpos : ∀ u ∈ us, u.1 ≠ 0)
    (f : RegisterFile) :
    ∃ shapes, shapesFrom true ⟨f, c⟩ (us.map Prod.snd) = .ok shapes ∧
      (SigPush.threadEffects f (messages us)).map Effect.token = tokensAlong us shapes := by
  induction us generalizing f with
  | nil => exact ⟨[], rfl, rfl⟩
  | cons u us ih =>
      obtain ⟨hlen, m, hm⟩ := hdecodes u List.mem_cons_self
      obtain ⟨rest, hrest, htokens⟩ := ih (fun v hv => hdecodes v (List.mem_cons_of_mem _ hv))
        (fun v hv => hpos v (List.mem_cons_of_mem _ hv)) (f.threadStep m)
      obtain ⟨sh, hsh⟩ := effect_shape m (m.hit f)
      have hshape : shapeOf (m.effect 1 (m.hit f)).token = sh := by
        rw [hsh, shapeOf_at sh Nat.one_ne_zero]
      have hmessages : messages (u :: us) = (u.1, m) :: messages us := by
        rw [messages, List.filterMap_cons, if_neg (Nat.not_lt.mpr hlen), hm]
        rfl
      refine ⟨sh :: rest, shapesFrom_cons.mpr ⟨_, sh, rest, ?_, hrest, rfl⟩, ?_⟩
      · rw [← hshape]
        exact Fallible.bind_eq_ok.mpr ⟨m, hm, rfl⟩
      · rw [hmessages]
        show (m.effect u.1 (m.hit f)).token :: _ = sh.at u.1 :: tokensAlong us rest
        rw [hsh, ← htokens]

/-- The pull's tokens have the shapes of its walk. -/
theorem pull_shapes (file : RegisterFile) (hhead : ∀ u ∈ us, 3 ≤ u.2.length) {p t : Pull}
    (h : us.foldlM Pull.step p = .ok t) :
    ∃ shapes, shapesFrom false ⟨file, p.cache⟩ (us.map Prod.snd) = .ok shapes ∧
      t.tokens = p.tokens ++ tokensAlong us shapes := by
  induction us generalizing p with
  | nil =>
      cases h
      exact ⟨[], rfl, (List.append_nil _).symm⟩
  | cons u us ih =>
      rw [List.foldlM_cons] at h
      obtain ⟨q, hstep, h⟩ := Fallible.bind_eq_ok.mp h
      rw [Pull.step, if_neg (Nat.not_lt.mpr (hhead u List.mem_cons_self))] at hstep
      obtain ⟨m, hm, hresolve⟩ := Fallible.bind_eq_ok.mp hstep
      obtain ⟨q', sh, hq', hcache, htokens, htokens'⟩ :=
        @resolve_shape p ⟨p.cache, [], 0, 0, 0⟩ q m (locOf u.2) rfl u.1 1 hresolve
      obtain ⟨rest, hrest, hall⟩ := ih (fun v hv => hhead v (List.mem_cons_of_mem _ hv)) h
      rw [← hcache] at hrest
      have hshape : shapeOf (q'.tokens.headD .empty) = sh := by
        rw [htokens']
        exact shapeOf_at sh Nat.one_ne_zero
      refine ⟨sh :: rest, shapesFrom_cons.mpr ⟨_, sh, rest, ?_, hrest, rfl⟩, ?_⟩
      · rw [← hshape]
        exact Fallible.bind_eq_ok.mpr ⟨m, hm, Fallible.bind_eq_ok.mpr ⟨q', hq', rfl⟩⟩
      · rw [hall, htokens, List.append_assoc]
        rfl

/-- The tokens of either path have the shapes of its walk. -/
theorem resolve_shapes {r : ResolveOut} (h : resolve push bodies = .ok r)
    (hdecodes : Decodes (stream bodies)) :
    ∃ shapes, shapesFrom push .new ((stream bodies).map Prod.snd) = .ok shapes ∧
      r.tokens = tokensAlong (stream bodies) shapes := by
  cases push with
  | true =>
      obtain ⟨p, hrun, hr⟩ := Fallible.bind_eq_ok.mp h
      cases hr
      obtain ⟨p', hrun', htokens, -⟩ := SigPush.resolvePush_decodes hdecodes
      rw [hrun] at hrun'
      cases hrun'
      obtain ⟨shapes, hshapes, hall⟩ :=
        push_shapes (.new 16) hdecodes (fun u hu => stream_pos hu) fun _ => none
      exact ⟨shapes, hshapes, htokens.trans hall⟩
  | false =>
      obtain ⟨t, hrun, hr⟩ := Fallible.bind_eq_ok.mp h
      cases hr
      obtain ⟨shapes, hshapes, hall⟩ :=
        pull_shapes (fun _ => none) (fun u hu => (hdecodes u hu).1) hrun
      exact ⟨shapes, hshapes, hall⟩

end Walks

/-! ## Silent messages -/

section Silent

variable {push : Bool} {s : ShapeState} {shapes : List Shape}

theorem shapeStep_other {msg : List UInt8} (h : ty36 (msg.getD 0 0) = 9) :
    shapeStep push s msg = .ok (s, .silent) := by
  have hdecode := decode_other h
  cases push with
  | true => exact Fallible.bind_eq_ok.mpr ⟨.other, hdecode, rfl⟩
  | false =>
      exact Fallible.bind_eq_ok.mpr ⟨.other, hdecode, Fallible.bind_eq_ok.mpr ⟨_, rfl, rfl⟩⟩

/-- Messages, each marked as kept or left out; only messages of no book type are left out. -/
def Drops (marked : List (List UInt8 × Bool)) : Prop :=
  ∀ p ∈ marked, p.2 = false → ty36 (p.1.getD 0 0) = 9

/-- What is kept. -/
def kept {α : Type} (marked : List (α × Bool)) : List α := (marked.filter Prod.snd).map Prod.fst

theorem kept_cons {α : Type} (a : α) (b : Bool) (rest : List (α × Bool)) :
    kept ((a, b) :: rest) = if b then a :: kept rest else kept rest := by
  cases b <;> rfl

/-- The shapes with the marks of their messages. -/
def markedShapes (marked : List (List UInt8 × Bool)) (shapes : List Shape) :
    List ((List UInt8 × Shape) × Bool) :=
  List.zipWith (fun p sh => ((p.1, sh), p.2)) marked shapes

/-- The walk over the kept messages gives the kept shapes; the others are silent. -/
theorem shapesFrom_kept {marked : List (List UInt8 × Bool)} (hdrops : Drops marked)
    (h : shapesFrom push s (marked.map Prod.fst) = .ok shapes) :
    (∃ shapes', shapesFrom push s (kept marked) = .ok shapes' ∧
      (kept marked).zip shapes' = kept (markedShapes marked shapes)) ∧
    ∀ p ∈ markedShapes marked shapes, p.2 = false →
      ty36 (p.1.1.getD 0 0) = 9 ∧ p.1.2 = .silent := by
  induction marked generalizing s shapes with
  | nil => exact ⟨⟨[], rfl, rfl⟩, nofun⟩
  | cons p marked ih =>
      obtain ⟨msg, b⟩ := p
      obtain ⟨next, sh, rest, hstep, hrest, rfl⟩ := shapesFrom_cons.mp h
      obtain ⟨⟨rest', hrest', hzip⟩, hsilent⟩ :=
        ih (fun q hq => hdrops q (List.mem_cons_of_mem _ hq)) hrest
      have hmarked : markedShapes ((msg, b) :: marked) (sh :: rest) =
          ((msg, sh), b) :: markedShapes marked rest := rfl
      rw [hmarked, kept_cons, kept_cons]
      cases b with
      | true =>
          refine ⟨⟨sh :: rest', shapesFrom_cons.mpr ⟨next, sh, rest', hstep, hrest', rfl⟩, ?_⟩, ?_⟩
          · exact congrArg ((msg, sh) :: ·) hzip
          · intro q hq hfalse
            rcases List.mem_cons.mp hq with rfl | hmem
            · cases hfalse
            · exact hsilent q hmem hfalse
      | false =>
          have hother := hdrops (msg, false) List.mem_cons_self rfl
          rw [shapeStep_other hother] at hstep
          cases hstep
          refine ⟨⟨rest', hrest', hzip⟩, fun q hq hfalse => ?_⟩
          rcases List.mem_cons.mp hq with rfl | hmem
          · exact ⟨hother, rfl⟩
          · exact hsilent q hmem hfalse

end Silent

end HftProj.Testkit.SigFabric
