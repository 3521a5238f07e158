import HftProj.Testkit.BakeTotal
import HftProj.Testkit.ResolveShapes

/-!
# The replays of a fabric

The scalar replay walks the locates' chunk signatures; the wide one takes eight locates at a
time from the table of the first signatures where none of them has a second chunk; the global
one combines the chunks of the whole column. They agree with the frozen values, and these with
the tokens applied one by one.
-/

namespace HftProj.Testkit.SigFabric

open HftProj.Lib
open LobState (Sig Lob3 sigCombine sigFold Signs Keyed)
open Scatter (cells offset)
open SpanField (Cpu)

/-! ## The replays -/

/-- The digest and the aggregate over the locates so far. -/
@[ext]
structure Replay where
  digest : BitVec 64
  gAll : Sig

namespace Replay

def new : Replay := ⟨0, .identity⟩

/-- The mix of one locate. -/
def mix (s : Replay) (l : ℕ) (g : Sig) (st : Lob3) : Replay where
  digest := s.digest ^^^ sigDigestMix l g st
  gAll := sigCombine s.gAll g

/-- A locate folded through its chunk signatures. -/
def scalar (f : Fabric) (s : Replay) (l : ℕ) : Except Fault Replay := do
  let a ← fetch f.sigOff l
  let b ← fetch f.sigOff (l + 1)
  if a ≤ b ∧ b ≤ f.sigs.length then
    let r := (slice f.sigs a b).foldl
      (fun (r : Sig × Lob3) g => (sigCombine r.1 g, r.2.apply g)) (.identity, .default)
    return s.mix l r.1 r.2
  else .error .outOfBounds

/-- A locate of one chunk. -/
def wave (f : Fabric) (s : Replay) (l : ℕ) : Except Fault Replay := do
  let g ← fetch f.sig0 l
  return s.mix l g ⟨g.db, g.da, if g.seq ≠ 0 then g.px else 0⟩

/-- `any_multi`: whether one of the eight locates from `l` on has a second chunk. -/
def anyMulti (f : Fabric) (l : ℕ) : Except Fault Bool :=
  (List.range' l 8).foldlM
    (fun any li =>
      if any then .ok true
      else do
        let b ← fetch f.sigOff (li + 1)
        let a ← fetch f.sigOff li
        return decide ((b + 2 ^ 32 - a) % 2 ^ 32 > 1))
    false

/-- The eight locates from `8 * k` on. -/
def group (f : Fabric) (s : Replay) (k : ℕ) : Except Fault Replay := do
  let any ← anyMulti f (8 * k)
  (List.range' (8 * k) 8).foldlM (if any then scalar f else wave f) s

/-- What a replay returns. -/
def sealed (s : Replay) : BitVec 64 × Sig := (sealDigest s.digest s.gAll, s.gAll)

end Replay

/-- `replay_sig_fabric_scalar`. -/
def replaySigFabricScalar (f : Fabric) : Except Fault (BitVec 64 × Sig) := do
  let s ← (List.range f.nLocates).foldlM (Replay.scalar f) .new
  return s.sealed

/-- `replay_sig_fabric`: whole groups of eight, then the locates behind them. -/
def replaySigFabric (f : Fabric) : Except Fault (BitVec 64 × Sig) :=
  if f.nLocates < 64 then replaySigFabricScalar f
  else do
    let s ← (List.range (f.nLocates / 8)).foldlM (Replay.group f) .new
    let s ← (List.range' (8 * (f.nLocates / 8)) (f.nLocates % 8)).foldlM (Replay.scalar f) s
    return s.sealed

/-- `replay_global`. -/
def replayGlobal (f : Fabric) : Sig := sigTotal f.globalSigs

/-! ## The signatures of the locates -/

section Signatures

variable {cpu : Cpu} {ts : List Token} {parts : List (List Token)}

/-- The signature of some tokens signs them. -/
theorem signs_total (cpu : Cpu) (ts : List Token) :
    Signs (sigTotal (chunkSigs cpu ts)) (ts.map tokenSig) := by
  have hfold : ∀ (ps : List (List Sig)) (g : Sig) (us : List Sig), Signs g us →
      Signs ((ps.map (sigFold cpu.avx512f)).foldl sigCombine g) (us ++ ps.flatten) := by
    intro ps
    induction ps with
    | nil =>
        intro g us h
        rwa [List.flatten_nil, List.append_nil]
    | cons p ps ih =>
        intro g us h
        rw [List.flatten_cons, ← List.append_assoc]
        exact ih _ _ (h.append (LobState.signs_sigFold cpu.avx512f p))
  have hall := hfold (chunksOf sigChunk (ts.map tokenSig)) .identity [] LobState.signs_nil
  rwa [chunksOf_flatten (by decide), List.nil_append] at hall

/-- The aggregate over the first locates signs their tokens. -/
theorem signs_aggregate (cpu : Cpu) (parts : List (List Token)) {l : ℕ} (hl : l ≤ parts.length) :
    Signs (aggregateTo (parts.map (chunkSigs cpu)) l)
      ((parts.take l).flatten.map tokenSig) := by
  induction l with
  | zero => exact LobState.signs_nil
  | succ l ih =>
      have hsig : sigOf (parts.map (chunkSigs cpu)) l = sigTotal (chunkSigs cpu parts[l]) := by
        rw [sigOf, List.getD_eq_getElem _ _ (by rwa [List.length_map]), List.getElem_map]
      rw [aggregateTo_succ, List.take_succ_eq_append_getElem hl, List.flatten_append,
        List.flatten_singleton, List.map_append, hsig]
      exact (ih (Nat.le_of_succ_le hl)).append (signs_total cpu _)

/-- Without a setter the price is 0. -/
theorem Signs.unset {g : Sig} {us : List Sig} (h : Signs g us) (hseq : g.seq = 0) : g.px = 0 := by
  rcases h.tag with ⟨hempty, -⟩ | ⟨hne, -⟩
  · exact congrArg Prod.snd hempty
  · exact absurd (congrArg BitVec.toNat hseq) hne

/-- Chunk by chunk, increasing tokens give the state that they give one by one. -/
theorem apply_chunks {us : List Sig} (avx512f : Bool) (hk : Keyed us) (s : Lob3) :
    ((chunksOf sigChunk us).map (sigFold avx512f)).foldl Lob3.apply s =
      us.foldl Lob3.apply s := by
  have hchunks : ∀ (ps : List (List Sig)) (s : Lob3), Keyed ps.flatten →
      (ps.map (sigFold avx512f)).foldl Lob3.apply s = ps.flatten.foldl Lob3.apply s := by
    intro ps
    induction ps with
    | nil => exact fun _ _ => rfl
    | cons p ps ih =>
        intro s hps
        rw [List.flatten_cons] at hps ⊢
        rw [List.map_cons, List.foldl_cons, LobState.apply_sigFold hps.left, ih _ hps.right,
          List.foldl_append]
  have hflat := chunksOf_flatten (show 0 < sigChunk by decide) us
  have hall := hchunks (chunksOf sigChunk us) s (by rwa [hflat])
  rwa [hflat] at hall

end Signatures

/-! ## Frozen tables -/

/-- The tables of some locates' signatures, none of them without one. -/
structure Frozen (gss : List (List Sig)) (f : Fabric) : Prop where
  nLocates : f.nLocates = gss.length
  sigOff : f.sigOff = (List.range (gss.length + 1)).map (offset (gss.map List.length))
  sigs : f.sigs = gss.flatten
  sig0 : f.sig0 = (List.range gss.length).map fun i => (gss.getD i []).headD .identity
  few : gss.flatten.length < 2 ^ 32
  filled : ∀ gs ∈ gss, gs ≠ []
  unset : ∀ gs ∈ gss, ∀ g ∈ gs, g.seq = 0 → g.px = 0

/-- A replay behind the first locates. -/
def Replay.to (gss : List (List Sig)) (l : ℕ) : Replay := ⟨digestTo gss l, aggregateTo gss l⟩

section Frozen

variable {gss : List (List Sig)} {f : Fabric} {l : ℕ}

theorem Replay.to_succ (gss : List (List Sig)) (l : ℕ) :
    (Replay.to gss l).mix l (sigOf gss l) (stateOf gss l) = Replay.to gss (l + 1) := by
  rw [Replay.to, Replay.to, digestTo_succ, aggregateTo_succ]
  rfl

theorem Frozen.fetch_sigOff (h : Frozen gss f) (hl : l ≤ gss.length) :
    fetch f.sigOff l = .ok (offset (gss.map List.length) l) := by
  rw [fetch_some, h.sigOff, List.getElem?_map, List.getElem?_range (Nat.lt_succ_of_le hl)]
  rfl

theorem Frozen.sizes (h : Frozen gss f) (hl : l < gss.length) :
    offset (gss.map List.length) (l + 1) = offset (gss.map List.length) l + gss[l].length ∧
      offset (gss.map List.length) (l + 1) ≤ f.sigs.length ∧ f.sigs.length < 2 ^ 32 := by
  have hlen : l < (gss.map List.length).length := by rwa [List.length_map]
  refine ⟨?_, ?_, ?_⟩
  · rw [Scatter.offset_succ hlen, List.getElem_map]
  · rw [h.sigs, List.length_flatten]
    exact Scatter.offset_le_sum _ _
  · rw [h.sigs]
    exact h.few

/-- Both folds of the scalar body. -/
theorem foldl_both (gs : List Sig) (g : Sig) (st : Lob3) :
    gs.foldl (fun (r : Sig × Lob3) g => (sigCombine r.1 g, r.2.apply g)) (g, st) =
      (gs.foldl sigCombine g, gs.foldl Lob3.apply st) := by
  induction gs generalizing g st with
  | nil => rfl
  | cons x gs ih => exact ih _ _

theorem Frozen.scalar (h : Frozen gss f) (hl : l < gss.length) (s : Replay) :
    s.scalar f l = .ok (s.mix l (sigOf gss l) (stateOf gss l)) := by
  obtain ⟨hnext, hend, -⟩ := h.sizes hl
  have hsize : offset (gss.map List.length) (l + 1) - offset (gss.map List.length) l =
      gss[l].length := by omega
  have hslice : slice f.sigs (offset (gss.map List.length) l)
      (offset (gss.map List.length) (l + 1)) = gss[l] := by
    rw [slice, hsize, h.sigs]
    exact Scatter.cells_flatten gss hl
  have hget : gss.getD l [] = gss[l] := List.getD_eq_getElem _ _ hl
  refine Fallible.bind_eq_ok.mpr ⟨_, h.fetch_sigOff hl.le,
    Fallible.bind_eq_ok.mpr ⟨_, h.fetch_sigOff hl, ?_⟩⟩
  rw [if_pos ⟨by omega, hend⟩, hslice, foldl_both, sigOf, stateOf, hget]
  rfl

/-- In a locate of one chunk the first signature is the locate's. -/
theorem Frozen.wave (h : Frozen gss f) (hl : l < gss.length) (hone : gss[l].length ≤ 1)
    (s : Replay) : s.wave f l = .ok (s.mix l (sigOf gss l) (stateOf gss l)) := by
  obtain ⟨g, rest, hcons⟩ := List.exists_cons_of_ne_nil (h.filled _ (List.getElem_mem hl))
  have hrest : rest = [] := by
    rw [hcons, List.length_cons] at hone
    exact List.length_eq_zero_iff.mp (by omega)
  rw [hrest] at hcons
  have hget : gss.getD l [] = [g] := (List.getD_eq_getElem _ _ hl).trans hcons
  have hg0 : fetch f.sig0 l = .ok g := by
    rw [fetch_some, h.sig0, List.getElem?_map, List.getElem?_range hl]
    exact congrArg (fun gs => some (gs.headD Sig.identity)) hget
  have hunset : g.seq = 0 → g.px = 0 :=
    h.unset _ (List.getElem_mem hl) g (by rw [hcons]; exact List.mem_singleton_self g)
  have hsig : sigOf gss l = g := by
    rw [sigOf, hget]
    show sigCombine Sig.identity g = g
    by_cases hseq : g.seq = 0
    · ext1
      · exact zero_add g.db
      · exact zero_add g.da
      · simp [sigCombine, Sig.identity, hseq, hunset hseq]
      · simp [sigCombine, Sig.identity, hseq]
    · have hset : g.seq ≠ 0#64 := hseq
      ext1
      · exact zero_add g.db
      · exact zero_add g.da
      · simp [sigCombine, Sig.identity, hset]
      · simp [sigCombine, Sig.identity, hset]
  have hstate : stateOf gss l = ⟨g.db, g.da, if g.seq ≠ 0 then g.px else 0⟩ := by
    rw [stateOf, hget]
    ext1
    · exact zero_add g.db
    · exact zero_add g.da
    · rfl
  refine Fallible.bind_eq_ok.mpr ⟨g, hg0, ?_⟩
  rw [hsig, hstate]
  rfl

/-- Where no escape is taken, each of the eight locates has one chunk. -/
theorem Frozen.anyMulti (h : Frozen gss f) (hl : l + 8 ≤ gss.length) :
    ∃ any, Replay.anyMulti f l = .ok any ∧
      (any = false → ∀ i (hi : i < gss.length), l ≤ i → i < l + 8 → gss[i].length ≤ 1) := by
  have hstep : ∀ pre u post (any : Bool), List.range' l 8 = pre ++ u :: post →
      (any = false → ∀ i ∈ pre, ∀ hi : i < gss.length, gss[i].length ≤ 1) →
      ∃ any', (if any then Except.ok true
        else do
          let b ← fetch f.sigOff (u + 1)
          let a ← fetch f.sigOff u
          return decide ((b + 2 ^ 32 - a) % 2 ^ 32 > 1)) = .ok any' ∧
        (any' = false → ∀ i ∈ pre ++ [u], ∀ hi : i < gss.length, gss[i].length ≤ 1) := by
    intro pre u post any heq hany
    have hmem : u ∈ List.range' l 8 := by
      rw [heq]
      exact List.mem_append_right _ List.mem_cons_self
    rw [List.mem_range'_1] at hmem
    cases any with
    | true => exact ⟨true, rfl, nofun⟩
    | false =>
        have hu : u < gss.length := by omega
        obtain ⟨hnext, hend, hbound⟩ := h.sizes hu
        refine ⟨_, Fallible.bind_eq_ok.mpr ⟨_, h.fetch_sigOff hu,
          Fallible.bind_eq_ok.mpr ⟨_, h.fetch_sigOff hu.le, rfl⟩⟩, fun hone i hi hlt => ?_⟩
        rcases List.mem_append.mp hi with hpre | hlast
        · exact hany rfl i hpre hlt
        · rw [List.mem_singleton] at hlast
          subst hlast
          rw [decide_eq_false_iff_not] at hone
          omega
  obtain ⟨any, hrun, hall⟩ := Fallible.foldlM_total
    (P := fun (pre : List ℕ) (any : Bool) =>
      any = false → ∀ i ∈ pre, ∀ hi : i < gss.length, gss[i].length ≤ 1)
    (fun _ i hi => absurd hi List.not_mem_nil) hstep
  exact ⟨any, hrun, fun hfalse i hi hle hlt =>
    hall hfalse i (List.mem_range'_1.mpr ⟨hle, hlt⟩) hi⟩

/-- A body that mixes each locate in walks through a range of them. -/
theorem Replay.walk {F : Replay → ℕ → Except Fault Replay} {a n : ℕ}
    (hF : ∀ s l, a ≤ l → l < a + n → F s l = .ok (s.mix l (sigOf gss l) (stateOf gss l))) :
    (List.range' a n).foldlM F (.to gss a) = .ok (.to gss (a + n)) := by
  induction n generalizing a with
  | zero => rfl
  | succ n ih =>
      rw [List.range'_succ, List.foldlM_cons]
      refine Fallible.bind_eq_ok.mpr ⟨_, hF _ a (Nat.le_refl a) (by omega), ?_⟩
      rw [Replay.to_succ, ih fun s l hle hlt => hF s l (by omega) (by omega)]
      congr 2
      omega

theorem Frozen.group (h : Frozen gss f) {k : ℕ} (hk : 8 * k + 8 ≤ gss.length) :
    (Replay.to gss (8 * k)).group f k = .ok (.to gss (8 * (k + 1))) := by
  obtain ⟨any, hany, hone⟩ := h.anyMulti hk
  refine Fallible.bind_eq_ok.mpr ⟨any, hany, ?_⟩
  cases any with
  | true => exact Replay.walk fun s l _ hlt => h.scalar (by omega) s
  | false => exact Replay.walk fun s l hle hlt => h.wave (by omega) (hone rfl l _ hle hlt) s

/-- The scalar replay. -/
theorem Frozen.replayScalar (h : Frozen gss f) :
    replaySigFabricScalar f = .ok (Replay.to gss gss.length).sealed := by
  have hrun : (List.range' 0 gss.length).foldlM (Replay.scalar f) (.to gss 0) =
      .ok (.to gss (0 + gss.length)) :=
    Replay.walk fun s l _ hlt => h.scalar (by omega) s
  rw [← List.range_eq_range', Nat.zero_add] at hrun
  refine Fallible.bind_eq_ok.mpr ⟨_, ?_, rfl⟩
  rw [h.nLocates]
  exact hrun

/-- The wide replay. -/
theorem Frozen.replayWide (h : Frozen gss f) :
    replaySigFabric f = .ok (Replay.to gss gss.length).sealed := by
  rw [replaySigFabric]
  split
  · exact h.replayScalar
  · have hgroups : ∀ k, 8 * k ≤ gss.length →
        (List.range k).foldlM (Replay.group f) (.to gss 0) = .ok (.to gss (8 * k)) := by
      intro k
      induction k with
      | zero => exact fun _ => rfl
      | succ k ih =>
          intro hk
          rw [List.range_succ, Fallible.foldlM_snoc, ih (by omega)]
          exact h.group (by omega)
    have hrest : (List.range' (8 * (gss.length / 8)) (gss.length % 8)).foldlM (Replay.scalar f)
        (.to gss (8 * (gss.length / 8))) =
        .ok (.to gss (8 * (gss.length / 8) + gss.length % 8)) :=
      Replay.walk fun s l _ hlt => h.scalar (by omega) s
    rw [Nat.div_add_mod] at hrest
    rw [h.nLocates]
    exact Fallible.bind_eq_ok.mpr ⟨_, hgroups _ (Nat.mul_div_le _ _),
      Fallible.bind_eq_ok.mpr ⟨_, hrest, rfl⟩⟩

end Frozen

/-! ## The keys of a stream -/

section Keys

variable {bodies : List (List UInt8)} {push : Bool} {r : ResolveOut}

/-- A token of a stream has no key or its position. -/
theorem tokensAlong_key {us : List (ℕ × List UInt8)} {shapes : List Shape} {i : ℕ} {t : Token}
    {u : ℕ × List UInt8} (ht : (tokensAlong us shapes)[i]? = some t) (hu : us[i]? = some u) :
    t.sv = 0 ∨ t.sv = u.1 := by
  obtain ⟨v, sh, hv, -, rfl⟩ := List.getElem?_zipWith_eq_some.mp ht
  cases hu.symm.trans hv
  rw [Shape.at]
  split
  · exact Or.inr rfl
  · exact Or.inl rfl

/-- The tokens of a stream that decodes: one for each unit, with increasing keys. -/
theorem resolve_keyed (hresolve : resolve push bodies = .ok r)
    (hdecodes : Decodes (stream bodies)) (hfew : (stream bodies).length < 2 ^ 32) :
    r.tokens.length = (stream bodies).length ∧ Keyed (r.tokens.map tokenSig) := by
  obtain ⟨shapes, hshapes, htokens⟩ := resolve_shapes hresolve hdecodes
  have hlen : r.tokens.length = (stream bodies).length := by
    have hsize := shapesFrom_length hshapes
    rw [List.length_map] at hsize
    rw [htokens, tokensAlong, List.length_zipWith, hsize, Nat.min_self]
  refine ⟨hlen, ?_⟩
  have hkey : ∀ i (hi : i < r.tokens.length), (tokenSig r.tokens[i]).seq ≠ 0 →
      (tokenSig r.tokens[i]).seq.toNat = i + 1 := by
    intro i hi hne
    have hu : i < (stream bodies).length := by omega
    have hpos : (stream bodies)[i].1 = i + 1 := by
      have hmap : ((stream bodies).map Prod.fst)[i]? = some (1 + i) := by
        rw [stream_positions, List.getElem?_range' hu, Nat.one_mul]
      rw [List.getElem?_map, List.getElem?_eq_getElem hu] at hmap
      exact (Option.some.inj hmap).trans (Nat.add_comm 1 i)
    have hget : (tokensAlong (stream bodies) shapes)[i]? = some r.tokens[i] := by
      rw [← htokens]
      exact List.getElem?_eq_getElem hi
    have hsv := tokensAlong_key hget (List.getElem?_eq_getElem hu)
    rw [hpos] at hsv
    rcases hsv with hzero | hset
    · rw [tokenSig, hzero] at hne
      exact absurd rfl hne
    · rw [tokenSig, hset, BitVec.toNat_ofNat]
      exact Nat.mod_eq_of_lt (by omega)
  apply List.pairwise_iff_getElem.mpr
  intro i j hi hj hlt hne hne'
  rw [List.length_map] at hi hj
  rw [List.getElem_map] at hne hne' ⊢
  rw [List.getElem_map, BitVec.lt_def, hkey i hi hne, hkey j hj hne']
  omega

/-- The layout reorders the tokens. -/
theorem laidOut_perm {ms : List (List UInt8)} {ts : List Token} (hlen : ms.length = ts.length) :
    (laidOut ms ts).flatten.Perm ts := by
  have hkeys : (ms.zip ts).map itemLoc = ms.map locOf := by
    rw [← congrArg (List.map locOf) (List.map_fst_zip hlen.le), List.map_map]
    rfl
  have hall : ((ms.zip ts).filter fun p => itemLoc p ∈ locates ms) = ms.zip ts := by
    rw [List.filter_eq_self]
    intro p hp
    have hmem : itemLoc p ∈ (ms.zip ts).map itemLoc := List.mem_map_of_mem hp
    rw [hkeys, ← mem_locates] at hmem
    exact decide_eq_true hmem
  have hperm := (@Threads.threads_perm _ _ _ itemLoc _ (locates_nodup ms) (ms.zip ts)).map Prod.snd
  rw [hall, List.map_snd_zip hlen.ge, List.map_flatMap] at hperm
  rw [laidOut, ← List.flatMap_def]
  exact hperm

end Keys

/-! ## Agreement -/

/-- The states are those of each locate's tokens one by one, the replays return the frozen digest
and the frozen signature, and this is the signature of the stream. -/
structure Agrees (ms : List (List UInt8)) (f : Fabric) : Prop where
  states : f.states = (locates ms).map fun loc =>
    ((tokensAt ms f.resolved.tokens loc).map tokenSig).foldl Lob3.apply .default
  scalar : replaySigFabricScalar f = .ok (f.digest, f.globalSig)
  wide : replaySigFabric f = .ok (f.digest, f.globalSig)
  global : replayGlobal f = f.globalSig
  stream : f.globalSig = LobState.sigFoldScalar (f.resolved.tokens.map tokenSig)

section Agrees

variable {cpu : Cpu} {bodies : List (List UInt8)} {push : Bool} {f : Fabric}

/-- The tables of a bake of few messages. -/
theorem Baked.frozen {ms : List (List UInt8)} (hb : Baked cpu ms f)
    (hlen : ms.length = f.resolved.tokens.length) (hfew : ms.length < 2 ^ 32) :
    Frozen (f.chunked cpu ms) f := by
  have hsize : f.nLocates = (f.chunked cpu ms).length := by
    rw [hb.nLocates, Fabric.chunked, List.length_map, laidOut, List.length_map]
  constructor
  · exact hsize
  · rw [hb.sigOff, hsize]
  · exact hb.sigs
  · rw [hb.sig0, hsize]
  · have hle := sigs_le cpu (laidOut ms f.resolved.tokens)
    rw [laidOut_length hlen.le] at hle
    exact Nat.lt_of_le_of_lt hle hfew
  · intro gs hgs
    obtain ⟨p, hp, rfl⟩ := List.mem_map.mp hgs
    exact chunkSigs_ne_nil (laidOut_ne_nil hlen.le p hp)
  · intro gs hgs g hg hseq
    obtain ⟨p, -, rfl⟩ := List.mem_map.mp hgs
    obtain ⟨c, -, rfl⟩ := List.mem_map.mp hg
    exact Signs.unset (LobState.signs_sigFold cpu.avx512f c) hseq

/-- A baked fabric of fewer than 2^32 messages agrees. -/
theorem bake_agrees (hbake : bakeSigFabricForced cpu bodies push = .ok f)
    (hfew : (stream bodies).length < 2 ^ 32) : Agrees ((stream bodies).map Prod.snd) f := by
  obtain ⟨hdecodes, hresolve, -, -, -, -⟩ := bake_span hbake
  obtain ⟨-, hb⟩ := bake_baked hbake hfew
  obtain ⟨hlen, hk⟩ := resolve_keyed hresolve hdecodes hfew
  obtain ⟨ms, hms⟩ : ∃ ms, (stream bodies).map Prod.snd = ms := ⟨_, rfl⟩
  have hsize : ms.length = f.resolved.tokens.length := by rw [hlen, ← hms, List.length_map]
  have hsmall : ms.length < 2 ^ 32 := by rwa [← hms, List.length_map]
  rw [hms] at hb ⊢
  have hz := hb.frozen hsize hsmall
  have hperm := (laidOut_perm hsize).map tokenSig
  have hparts : f.nLocates = (laidOut ms f.resolved.tokens).length := by
    rw [hz.nLocates, Fabric.chunked, List.length_map]
  have hglobal : Signs f.globalSig (f.resolved.tokens.map tokenSig) := by
    rw [hb.globalSig, hb.globalSigs, hb.toks]
    exact (signs_total cpu _).perm hperm
  have haggregate : aggregateTo (f.chunked cpu ms) f.nLocates = f.globalSig := by
    have hsigns := signs_aggregate cpu (laidOut ms f.resolved.tokens) hparts.le
    rw [hparts, List.take_length] at hsigns
    rw [hparts]
    exact (hsigns.perm hperm).unique hk hglobal
  have hseal : (Replay.to (f.chunked cpu ms) (f.chunked cpu ms).length).sealed =
      (f.digest, f.globalSig) := by
    rw [← hz.nLocates, Replay.sealed, Replay.to, haggregate, hb.digest, haggregate]
  constructor
  · rw [hb.states, hparts, laidOut, List.length_map]
    apply List.ext_getElem
    · rw [List.length_map, List.length_range, List.length_map]
    · intro i hi hi'
      rw [List.length_map] at hi'
      have hpart : (f.chunked cpu ms).getD i [] =
          chunkSigs cpu (tokensAt ms f.resolved.tokens (locates ms)[i]) := by
        rw [Fabric.chunked, laidOut, List.map_map, List.getD_eq_getElem _ _ (by
          rwa [List.length_map]), List.getElem_map]
        rfl
      have hsub : (tokensAt ms f.resolved.tokens (locates ms)[i]).Sublist f.resolved.tokens := by
        have hfilter := (List.filter_sublist (p := fun x => itemLoc x = (locates ms)[i])
          (l := ms.zip f.resolved.tokens)).map Prod.snd
        rwa [List.map_snd_zip hsize.ge] at hfilter
      rw [List.getElem_map, List.getElem_range, List.getElem_map, stateOf, hpart]
      exact apply_chunks cpu.avx512f (hk.sublist (hsub.map tokenSig)) _
  · rw [hz.replayScalar, hseal]
  · rw [hz.replayWide, hseal]
  · exact hb.globalSig.symm
  · exact hglobal.unique hk (LobState.signs_scalar _)

end Agrees

/-! ## One locate's counts wrapping -/

/-- An add of one share, to buy. -/
def oneShare : List UInt8 :=
  'A'.toUInt8 :: List.replicate 17 0 ++ [1, 'B'.toUInt8, 0, 0, 0, 1] ++ List.replicate 12 0

/-- Its token. -/
def shareToken : Token := ⟨0, 0, 1, 0⟩

section Flood

variable {n : ℕ} {us : List (ℕ × List UInt8)} {h : Histogram} {e : Epilogue}

theorem decode_oneShare : decode oneShare = .ok (.add 1 'B'.toNat 1 0) := by decide

theorem stream_flood (n : ℕ) :
    (stream (List.replicate n (0 :: 36 :: oneShare))).map Prod.snd = List.replicate n oneShare := by
  have hunits : (List.replicate n (0 :: 36 :: oneShare)).flatMap units =
      List.replicate n oneShare := by
    rw [List.flatMap_replicate, units_single (by decide), List.flatten_replicate_singleton]
  rw [stream, hunits, List.map_map]
  exact List.zipIdx_map_fst 1 _

theorem flood_mem (hus : us.map Prod.snd = List.replicate n oneShare) :
    ∀ u ∈ us, u.2 = oneShare := by
  intro u hu
  have hmem : u.2 ∈ us.map Prod.snd := List.mem_map_of_mem hu
  rw [hus] at hmem
  exact List.eq_of_mem_replicate hmem

theorem flood_decodes (hus : us.map Prod.snd = List.replicate n oneShare) : Decodes us := by
  intro u hu
  rw [flood_mem hus u hu]
  exact ⟨by decide, _, decode_oneShare⟩

theorem flood_effects (hall : ∀ u ∈ us, u.2 = oneShare) (f : RegisterFile) :
    (SigPush.threadEffects f (messages us)).map Effect.token =
      List.replicate us.length shareToken := by
  induction us generalizing f with
  | nil => rfl
  | cons u us ih =>
      have hu := hall u List.mem_cons_self
      have hmessages : messages (u :: us) = (u.1, .add 1 'B'.toNat 1 0) :: messages us := by
        rw [messages, List.filterMap_cons, hu, decode_oneShare]
        rfl
      rw [hmessages, List.length_cons, List.replicate_succ,
        ← ih (fun v hv => hall v (List.mem_cons_of_mem _ hv))]
      rfl

theorem locates_replicate (n : ℕ) (m : List UInt8) :
    locates (List.replicate (n + 1) m) = [locOf m] := by
  induction n with
  | zero => rfl
  | succ n ih =>
      rw [List.replicate_succ', locates_snoc, ih, if_pos (List.mem_singleton_self _)]

theorem countOf_replicate (n : ℕ) (m : List UInt8) :
    countOf (List.replicate n m) (locOf m) = n := by
  rw [countOf, Threads.thread, List.filter_replicate, if_pos (decide_eq_true rfl),
    List.length_replicate]

/-- Pass 1 over copies of one message. -/
theorem flood_histogram (hus : us.map Prod.snd = List.replicate (n + 1) oneShare) :
    ∃ h, us.foldlM Histogram.step .new = .ok h ∧ h.nMsgs = n + 1 ∧ h.nLocates = 1 ∧
      h.counts = [(n + 1) % 2 ^ 32] ∧ h.locateIndex 0 = 0 := by
  have hlocates := locates_replicate n oneShare
  have hindexed : Indexed (us.map Prod.snd) := by
    intro loc hloc
    rw [hus, hlocates, List.getElem?_eq_none (by rw [List.length_singleton]; omega)] at hloc
    cases hloc
  obtain ⟨h, hrun, hof⟩ := histogram_of (fun u hu => (flood_decodes hus u hu).1) hindexed
  rw [hus] at hof
  refine ⟨h, hrun, ?_, ?_, ?_, ?_⟩
  · rw [hof.2, List.length_replicate]
  · rw [hof.nLocates, hlocates]
    rfl
  · rw [hof.1.counts, hlocates, List.map_singleton, countOf_replicate]
  · have hloc : locOf oneShare = 0 := by decide
    rw [hof.1.index, hlocates, hloc, if_pos (List.mem_singleton_self 0), List.idxOf_cons_self]

/-- The epilogue over copies of the message, its cursor wrapping. -/
structure Flooded (n k : ℕ) (e : Epilogue) : Prop where
  toks : e.toks = List.replicate (min k (2 ^ 32)) shareToken ++
    List.replicate (n - min k (2 ^ 32)) .empty
  cols : e.cols.length = k
  cur : e.cur = [k % 2 ^ 32]
  rest : e.rest = List.replicate (n - k) shareToken

theorem Flooded.step {k : ℕ} {u : ℕ × List UInt8} (hf : Flooded n k e) (hk : k < n)
    (hlast : n ≤ 2 ^ 32 + 1) (hu : u.2 = oneShare) (hindex : h.locateIndex 0 = 0)
    (hcounts : h.counts = [n % 2 ^ 32]) :
    ∃ e', e.step h u = .ok e' ∧ Flooded n (k + 1) e' := by
  have hoff : fetch (tokOff h.counts) 0 = .ok 0 := by rw [hcounts]; rfl
  have hcur : fetch e.cur 0 = .ok (k % 2 ^ 32) := by rw [hf.cur]; rfl
  have hrest : e.rest = shareToken :: List.replicate (n - (k + 1)) shareToken := by
    have hsplit : n - k = n - (k + 1) + 1 := by omega
    rw [hf.rest, hsplit, List.replicate_succ]
  have hroom : 0 + k % 2 ^ 32 < e.toks.length := by
    rw [hf.toks, List.length_append, List.length_replicate, List.length_replicate]
    omega
  refine ⟨{
    toks := e.toks.set (0 + k % 2 ^ 32) shareToken
    cols := e.cols ++ [spanRow u.2 shareToken]
    cur := e.cur.set 0 ((k % 2 ^ 32 + 1) % 2 ^ 32)
    rest := List.replicate (n - (k + 1)) shareToken }, ?_, ?_⟩
  · have hloc : h.locateIndex (locOf u.2) = 0 := by
      rw [hu]
      exact hindex
    rw [Epilogue.step, if_neg (by rw [hu]; decide), hloc]
    refine Fallible.bind_eq_ok.mpr ⟨_, hoff, Fallible.bind_eq_ok.mpr ⟨_, hcur, ?_⟩⟩
    rw [hrest]
    exact if_pos hroom
  · constructor
    · show e.toks.set (0 + k % 2 ^ 32) shareToken = _
      rw [hf.toks, Nat.zero_add]
      rcases Nat.lt_or_ge k (2 ^ 32) with hlow | hhigh
      · -- the next empty slot
        have hsplit : n - k = n - (k + 1) + 1 := by omega
        rw [Nat.mod_eq_of_lt hlow, Nat.min_eq_left hlow.le, Nat.min_eq_left hlow,
          List.set_append_right _ _ (by rw [List.length_replicate]), List.length_replicate,
          Nat.sub_self, hsplit, List.replicate_succ, List.set_cons_zero, List.replicate_succ',
          List.append_assoc]
        rfl
      · -- the first slot again
        have hwrap : k = 2 ^ 32 := by omega
        have hzero : k % 2 ^ 32 = 0 := by omega
        have hmin : min (k + 1) (2 ^ 32) = 2 ^ 32 := by omega
        have hone : 2 ^ 32 = (2 ^ 32 - 1) + 1 := by omega
        rw [hzero, Nat.min_eq_right hhigh, hmin]
        obtain ⟨w, hw⟩ : ∃ w, 2 ^ 32 = w + 1 := ⟨_, hone⟩
        rw [hw, List.replicate_succ]
        rfl
    · rw [List.length_append, hf.cols]
      rfl
    · show e.cur.set 0 _ = _
      rw [hf.cur, Nat.mod_add_mod]
      rfl
    · rfl

theorem flood_epilogue (hus : us.map Prod.snd = List.replicate n oneShare)
    (hlast : n ≤ 2 ^ 32 + 1) (hmsgs : h.nMsgs = n) (hlocates : h.nLocates = 1)
    (hindex : h.locateIndex 0 = 0) (hcounts : h.counts = [n % 2 ^ 32]) :
    ∃ e, us.foldlM (Epilogue.step h) (.new h (List.replicate n shareToken)) = .ok e ∧
      Flooded n n e := by
  have hlen : us.length = n := by
    rw [← List.length_map (f := Prod.snd), hus, List.length_replicate]
  have hstart : Flooded n 0 (.new h (List.replicate n shareToken)) := by
    constructor
    · show List.replicate h.nMsgs Token.empty = _
      rw [hmsgs, Nat.zero_min, Nat.sub_zero]
      rfl
    · rfl
    · show List.replicate h.nLocates 0 = _
      rw [hlocates]
      rfl
    · rfl
  have hstep : ∀ pre u post (e : Epilogue), us = pre ++ u :: post → Flooded n pre.length e →
      ∃ e', e.step h u = .ok e' ∧ Flooded n (pre ++ [u]).length e' := by
    intro pre u post e heq he
    have hk : pre.length < n := by
      rw [← hlen, heq, List.length_append, List.length_cons]
      omega
    have hu : u.2 = oneShare := flood_mem hus u (by rw [heq]; simp)
    rw [List.length_append]
    exact he.step hk hlast hu hindex hcounts
  obtain ⟨e, hrun, he⟩ := Fallible.foldlM_total
    (P := fun (pre : List (ℕ × List UInt8)) e => Flooded n pre.length e) hstart hstep
  rw [hlen] at he
  exact ⟨e, hrun, he⟩

/-- With 2^32 + 1 copies the counts say 1. -/
theorem flood_bake (hn : n = 2 ^ 32 + 1) :
    ∃ f, bakeSigFabricForced ⟨true, true, true⟩ (List.replicate n (0 :: 36 :: oneShare)) true =
        .ok f ∧ Frozen [[tokenSig shareToken]] f ∧
      f.globalSig = sigTotal (chunkSigs ⟨true, true, true⟩
        (List.replicate (2 ^ 32) shareToken ++ [.empty])) := by
  obtain ⟨us, hstream⟩ : ∃ us, stream (List.replicate n (0 :: 36 :: oneShare)) = us := ⟨_, rfl⟩
  have hus : us.map Prod.snd = List.replicate n oneShare := hstream ▸ stream_flood n
  have hlen : us.length = n := by
    rw [← List.length_map (f := Prod.snd), hus, List.length_replicate]
  obtain ⟨w, hw⟩ : ∃ w, n = w + 1 := ⟨n - 1, by omega⟩
  obtain ⟨h, hrun, hmsgs, hlocates, hcounts, hindex⟩ := @flood_histogram w us (hw ▸ hus)
  rw [← hw] at hmsgs hcounts
  obtain ⟨p, hp, htokens, -⟩ := SigPush.resolvePush_decodes (hstream ▸ flood_decodes hus)
  rw [hstream, flood_effects (flood_mem hus), hlen] at htokens
  obtain ⟨e, herun, he⟩ := flood_epilogue hus (by omega) hmsgs hlocates hindex hcounts
  rw [← htokens] at herun
  have htoks : e.toks = List.replicate (2 ^ 32) shareToken ++ [.empty] := by
    have hmin : min n (2 ^ 32) = 2 ^ 32 := by omega
    have hone : n - 2 ^ 32 = 1 := by omega
    rw [he.toks, hmin, hone]
    rfl
  have hspan : ∃ recs, spanRecords ⟨true, true, true⟩ h.nMsgs e.cols = .ok recs :=
    ⟨_, if_pos (by rw [hmsgs, he.cols])⟩
  obtain ⟨recs, hrecs⟩ := hspan
  have hoff : tokOff h.counts = [0, 1] := by
    have hone : n % 2 ^ 32 = 1 := by omega
    rw [hcounts, hone]
    rfl
  have hpart : Commits.tokensOf e.toks 0 1 = .ok [shareToken] := by
    obtain ⟨v, hv⟩ : ∃ v, 2 ^ 32 = v + 1 := ⟨2 ^ 32 - 1, by omega⟩
    rw [Commits.tokensOf, if_neg (by decide), htoks, hv, List.replicate_succ]
    exact if_pos (Nat.succ_le_succ (Nat.zero_le _))
  have hsigs : chunkSigs ⟨true, true, true⟩ [shareToken] = [tokenSig shareToken] := by decide
  obtain ⟨s, hs, hsigOff, hsigs', hsig0⟩ : ∃ s,
      Commits.new.step ⟨true, true, true⟩ e.toks [0, 1] 0 = .ok s ∧
      s.sigOff = [0] ∧ s.sigs = [tokenSig shareToken] ∧ s.sig0 = [tokenSig shareToken] := by
    refine ⟨_, Fallible.bind_eq_ok.mpr ⟨0, rfl, Fallible.bind_eq_ok.mpr ⟨1, rfl,
      Fallible.bind_eq_ok.mpr ⟨_, hpart, Fallible.bind_eq_ok.mpr ⟨tokenSig shareToken, ?_, rfl⟩⟩⟩⟩,
      rfl, hsigs, rfl⟩
    rw [hsigs]
    rfl
  have hsrun : (List.range h.nLocates).foldlM
      (Commits.step ⟨true, true, true⟩ e.toks (tokOff h.counts)) .new = .ok s := by
    rw [hlocates, hoff]
    exact Fallible.bind_eq_ok.mpr ⟨s, hs, rfl⟩
  refine ⟨_, Fallible.bind_eq_ok.mpr ⟨h, hstream ▸ hrun, Fallible.bind_eq_ok.mpr ⟨_,
    Fallible.bind_eq_ok.mpr ⟨p, hp, rfl⟩, Fallible.bind_eq_ok.mpr ⟨e, hstream ▸ herun,
      Fallible.bind_eq_ok.mpr ⟨recs, hrecs, Fallible.bind_eq_ok.mpr ⟨s, hsrun, rfl⟩⟩⟩⟩⟩, ?_, ?_⟩
  · constructor
    · exact hlocates
    · show s.sigOff ++ [s.sigs.length % 2 ^ 32] = _
      rw [hsigOff, hsigs']
      rfl
    · exact hsigs'
    · exact hsig0
    · decide
    · decide
    · decide
  · exact congrArg (fun ts => sigTotal (chunkSigs ⟨true, true, true⟩ ts)) htoks

end Flood

/-! ## Signatures and replays -/

/-- Over increasing keys the signatures give the states of the tokens one by one, at every chunk
length, and combine to the signature of the stream, however the parts are bracketed and
ordered. So the states and the replays of a baked fabric of fewer than 2^32 messages agree. -/
theorem signatures_replay_the_book (avx512f : Bool) {ts : List Sig} (hk : Keyed ts) {cpu : Cpu}
    {bodies : List (List UInt8)} {push : Bool} {f : Fabric}
    (hbake : bakeSigFabricForced cpu bodies push = .ok f)
    (hfew : (stream bodies).length < 2 ^ 32) :
    ((∀ (s0 : Lob3) (chunk : ℕ), 0 < chunk →
        LobState.sigPassStates avx512f s0 ts chunk =
          some ((List.range ((ts.length + chunk - 1) / chunk)).map fun k =>
            (ts.take ((k + 1) * chunk)).foldl Lob3.apply s0)) ∧
      LobState.sigFoldAvx512 ts = LobState.sigFoldScalar ts ∧
      ∀ t : LobState.Bracketing, t.parts.flatten.Perm ts →
        t.eval avx512f = LobState.sigFoldScalar ts) ∧
    Agrees ((stream bodies).map Prod.snd) f :=
  ⟨LobState.signatures_are_sequential avx512f hk, bake_agrees hbake hfew⟩

theorem signatures_replay_the_book_oneShare :
    ∃ f, bakeSigFabricForced ⟨true, true, true⟩ [0 :: 36 :: oneShare] true = .ok f ∧
      Agrees [oneShare] f := by
  have hstream : stream [0 :: 36 :: oneShare] = [(1, oneShare)] := by
    rw [stream, List.flatMap_singleton, units_single (by decide)]
    rfl
  have hdecodes : Decodes (stream [0 :: 36 :: oneShare]) := by
    rw [hstream]
    exact flood_decodes (n := 1) rfl
  obtain ⟨f, hf⟩ := bake_returns ⟨true, true, true⟩ hdecodes (by rw [hstream]; decide)
  have hagrees := (@signatures_replay_the_book true [tokenSig shareToken]
    (List.pairwise_singleton ..) _ _ _ f hf (by rw [hstream]; decide)).2
  rw [hstream] at hagrees
  exact ⟨f, hf, hagrees⟩

/-- Of 2^32 + 1 adds of one share in one locate the global signature has 2^32 shares and the
replays one. -/
theorem wrapped_counts_disagree :
    ∃ f, bakeSigFabricForced ⟨true, true, true⟩
        (List.replicate (2 ^ 32 + 1) (0 :: 36 :: oneShare)) true = .ok f ∧
      ¬Agrees ((stream (List.replicate (2 ^ 32 + 1) (0 :: 36 :: oneShare))).map Prod.snd) f := by
  obtain ⟨n, hn⟩ : ∃ n, n = 2 ^ 32 + 1 := ⟨_, rfl⟩
  rw [← hn]
  obtain ⟨f, hf, hz, hglobal⟩ := flood_bake hn
  refine ⟨f, hf, fun hagrees => ?_⟩
  have hscalar := hz.replayScalar.symm.trans hagrees.scalar
  have hsame : aggregateTo [[tokenSig shareToken]] 1 = f.globalSig :=
    congrArg Prod.snd (Except.ok.inj hscalar)
  have hone : (aggregateTo [[tokenSig shareToken]] 1).db = 1 := by decide
  have hmany : f.globalSig.db = BitVec.ofNat 64 (2 ^ 32) := by
    rw [hglobal, (signs_total _ _).db, List.map_append, List.map_append, List.map_replicate,
      List.map_replicate, List.sum_append, List.sum_replicate, nsmul_eq_mul]
    decide
  rw [← hsame, hone] at hmany
  exact absurd hmany (by decide)

end HftProj.Testkit.SigFabric
