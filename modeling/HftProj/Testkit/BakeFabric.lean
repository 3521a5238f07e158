import HftProj.Lib.Scatter
import HftProj.Testkit.LobState
import HftProj.Testkit.PushResolve
import HftProj.Testkit.SpanFold

/-!
# The bake

Three walks over the same units: the histogram of the stock locates, the resolve, and the
epilogue that lays the tokens out by locate and in message order. Then the folds: the global
chunks, the span records, and for each locate its chunk signatures and its state.
-/

namespace HftProj.Testkit.SigFabric

open HftProj.Lib
open LobState (Sig Lob3 sigCombine sigFold)
open SpanField (Cpu R36 P64)

/-- An index outside panics. -/
def fetch {α : Type*} (xs : List α) (i : ℕ) : Except Fault α :=
  match xs[i]? with
  | some x => .ok x
  | none => .error .outOfBounds

/-! ## Pass 1 -/

/-- The stock locate of a message. -/
def locOf (msg : List UInt8) : ℕ := beAt msg 1 2

/-- The histogram: `locateIndex` is `u16::MAX` where a locate has no index yet. -/
structure Histogram where
  locateIndex : ℕ → ℕ
  locateIds : List ℕ
  counts : List ℕ
  nMsgs : ℕ

namespace Histogram

def new : Histogram := ⟨fun _ => 65535, [], [], 0⟩

/-- A locate without an index gets the next one. -/
def enter (h : Histogram) (loc : ℕ) : Histogram :=
  if h.locateIndex loc = 65535 then
    { h with
      locateIndex := Function.update h.locateIndex loc (h.locateIds.length % 2 ^ 16)
      locateIds := h.locateIds ++ [loc]
      counts := h.counts ++ [0] }
  else h

/-- One unit; one with no type header is counted and skipped. -/
def step (h : Histogram) (u : ℕ × List UInt8) : Except Fault Histogram :=
  let h := { h with nMsgs := h.nMsgs + 1 }
  if u.2.length < 3 then .ok h
  else do
    let h := h.enter (locOf u.2)
    let c ← fetch h.counts (h.locateIndex (locOf u.2))
    return { h with counts := h.counts.set (h.locateIndex (locOf u.2)) ((c + 1) % 2 ^ 32) }

/-- `n_locates`. -/
def nLocates (h : Histogram) : ℕ := h.locateIds.length % 2 ^ 32

end Histogram

/-- `tok_off`: where each locate's tokens start, and where the last one's end. -/
def tokOff (counts : List ℕ) : List ℕ := counts.scanl (fun acc c => (acc + c) % 2 ^ 32) 0

/-! ## The resolve stage -/

structure ResolveOut where
  tokens : List Token
  anomalies : ℕ
  clamps : ℕ
  zeroRemKeeps : ℕ
  probes : ℕ
  rehashes : ℕ
  maxChain : ℕ
  maxLifecycle : ℕ

/-- Either resolve path; the push reports no cache instruments. -/
def resolve (push : Bool) (bodies : List (List UInt8)) : Except Fault ResolveOut :=
  if push then do
    let p ← SigPush.resolvePush bodies
    return ⟨p.tokens, p.counts.anomalies, p.counts.clamps, p.counts.zeroRemKeeps, 0, 0, 0, 0⟩
  else do
    let s ← resolvePull bodies
    return ⟨s.tokens, s.anomalies, s.clamps, s.zeroRemKeeps, s.cache.probes, s.cache.rehashes,
      s.cache.maxChain, s.cache.maxLifecycle⟩

/-! ## The epilogue -/

/-- `ty36`. -/
def ty36 (t : UInt8) : Fin 10 :=
  if t = 'A'.toUInt8 then 0
  else if t = 'F'.toUInt8 then 1
  else if t = 'E'.toUInt8 then 2
  else if t = 'C'.toUInt8 then 3
  else if t = 'X'.toUInt8 then 4
  else if t = 'D'.toUInt8 then 5
  else if t = 'U'.toUInt8 then 6
  else if t = 'P'.toUInt8 then 7
  else if t = 'Q'.toUInt8 then 8
  else 9

/-- `span_digest`. -/
def spanDigest (t : UInt8) (msg : List UInt8) : BitVec 64 :=
  if msg.length < 16 then 0
  else
    let a := BitVec.ofNat 64 (fromLeBytes (slice msg 0 8))
    let b := BitVec.ofNat 64 (fromLeBytes (msg.drop (msg.length - 8)))
    a ^^^ b.rotateLeft 29 ^^^ (BitVec.ofNat 64 t.toNat <<< 56)

/-- The row of the span columns that a message and its token give. -/
def spanRow (msg : List UInt8) (t : Token) : SpanField.Token where
  ty := ty36 (msg.getD 0 0)
  vd := spanDigest (msg.getD 0 0) msg
  db := t.d0
  da := t.d1
  px := BitVec.ofNat 32 t.pv
  setp := if t.sv ≠ 0 then 1 else 0

/-- The two layouts, the locates' write cursors and the tokens still to be laid out. -/
structure Epilogue where
  toks : List Token
  cols : List SpanField.Token
  cur : List ℕ
  rest : List Token

namespace Epilogue

def new (h : Histogram) (tokens : List Token) : Epilogue :=
  ⟨List.replicate h.nMsgs .empty, [], List.replicate h.nLocates 0, tokens⟩

/-- One unit; one with no type header is skipped. -/
def step (h : Histogram) (s : Epilogue) (u : ℕ × List UInt8) : Except Fault Epilogue :=
  if u.2.length < 3 then .ok s
  else do
    let i := h.locateIndex (locOf u.2)
    let off ← fetch (tokOff h.counts) i
    let c ← fetch s.cur i
    match s.rest with
    | [] => .error .outOfBounds
    | t :: rest =>
        if off + c < s.toks.length then
          return {
            toks := s.toks.set (off + c) t
            cols := s.cols ++ [spanRow u.2 t]
            cur := s.cur.set i ((c + 1) % 2 ^ 32)
            rest := rest }
        else .error .outOfBounds

end Epilogue

/-! ## The folds -/

/-- `SIG_CHUNK`. -/
def sigChunk : ℕ := 512

/-- A token as the signature of itself. -/
def tokenSig (t : Token) : Sig where
  db := t.d0
  da := t.d1
  px := BitVec.ofNat 64 t.pv
  seq := BitVec.ofNat 64 t.sv

/-- The signatures of the chunks of some tokens. -/
def chunkSigs (cpu : Cpu) (toks : List Token) : List Sig :=
  (chunksOf sigChunk (toks.map tokenSig)).map (sigFold cpu.avx512f)

def sigTotal (gs : List Sig) : Sig := gs.foldl sigCombine .identity

/-- The span layer. -/
structure SpanLayer where
  spanRecs : List R36
  spanP64 : P64
  spanHash : BitVec 64
  spanHEarly : BitVec 64
  spanHLate : BitVec 64
  spanWLate : ℕ

/-- The chunk records over `n` rows; the last slice ends at `n` and panics behind the columns. -/
def spanRecords (cpu : Cpu) (n : ℕ) (cols : List SpanField.Token) : Except Fault (List R36) :=
  if n ≤ cols.length then
    .ok ((chunksOf SpanField.chunkLen (cols.take n)).map fun p => (SpanField.foldCols cpu p 0).1)
  else .error .outOfBounds

/-- The composed record, its hash and the split at the record midpoint. -/
def spanLayer (cpu : Cpu) (recs : List R36) : SpanLayer :=
  let p := SpanField.composeRecords cpu recs
  let early := SpanField.composeRecords cpu (recs.take (recs.length / 2))
  let late := SpanField.composeRecords cpu (recs.drop (recs.length / 2))
  { spanRecs := recs
    spanP64 := p
    spanHash := SpanField.hashApplyP64 cpu 0 p
    spanHEarly := SpanField.hashApplyP64 cpu 0 early
    spanHLate := late.v
    spanWLate := late.deg.toNat }

/-- `sig_digest_mix`. -/
def sigDigestMix (l : ℕ) (g : Sig) (s : Lob3) : BitVec 64 :=
  let p1 := 0x100000001000001#64
  let p2 := 0x9E3779B97F4A7C15#64
  let w0 := g.db ^^^ g.da.rotateLeft 17 ^^^ g.px.rotateLeft 31
  let w1 := g.seq ^^^ BitVec.ofNat 64 l * p2
  let w2 := s.b ^^^ s.a.rotateLeft 13 ^^^ s.p.rotateLeft 41
  w0 * p1 ^^^ w1 * p2 ^^^ w2.rotateLeft 47

/-- `digest_avalanche`. -/
def digestAvalanche (h : BitVec 64) : BitVec 64 :=
  let x := h ^^^ h >>> 33
  let x := x * 0xff51afd7ed558ccd#64
  x ^^^ x >>> 33

/-- What both the bake and the replays return at the end. -/
def sealDigest (digest : BitVec 64) (gAll : Sig) : BitVec 64 :=
  digestAvalanche (digest ^^^ gAll.seq.rotateLeft 59)

/-- Phase S: the tables, the digest and the aggregate over the locates so far. -/
structure Commits where
  sigOff : List ℕ
  sigs : List Sig
  sig0 : List Sig
  states : List Lob3
  chunks : ℕ
  digest : BitVec 64
  gAll : Sig

namespace Commits

def new : Commits := ⟨[], [], [], [], 0, 0, .identity⟩

/-- A locate's tokens; a chunk behind the end of the column panics. -/
def tokensOf (toks : List Token) (a b : ℕ) : Except Fault (List Token) :=
  if b ≤ a then .ok []
  else if b ≤ toks.length then .ok (slice toks a b)
  else .error .outOfBounds

/-- One locate. -/
def step (cpu : Cpu) (toks : List Token) (off : List ℕ) (s : Commits) (l : ℕ) :
    Except Fault Commits := do
  let a ← fetch off l
  let b ← fetch off (l + 1)
  let ts ← tokensOf toks a b
  let gs := chunkSigs cpu ts
  let st := gs.foldl Lob3.apply .default
  let start := s.sigs.length % 2 ^ 32
  let gl := sigTotal ((s.sigs ++ gs).drop start)
  let g0 ← fetch (s.sigs ++ gs) start
  return {
    sigOff := s.sigOff ++ [start]
    sigs := s.sigs ++ gs
    sig0 := s.sig0 ++ [g0]
    states := s.states ++ [st]
    chunks := s.chunks + gs.length
    digest := s.digest ^^^ sigDigestMix l gl st
    gAll := sigCombine s.gAll gl }

end Commits

/-! ## The fabric -/

/-- `SigFabric`. -/
structure Fabric where
  nMsgs : ℕ
  nLocates : ℕ
  tokCounts : List ℕ
  tokOff : List ℕ
  toks : List Token
  sigOff : List ℕ
  sigs : List Sig
  sig0 : List Sig
  states : List Lob3
  digest : BitVec 64
  globalSigs : List Sig
  globalSig : Sig
  chunks : ℕ
  resolved : ResolveOut
  resolvePush : Bool
  span : SpanLayer

/-- `bake_sig_fabric_forced`. -/
def bakeSigFabricForced (cpu : Cpu) (bodies : List (List UInt8)) (push : Bool) :
    Except Fault Fabric := do
  let us := stream bodies
  let h ← us.foldlM Histogram.step .new
  let resolved ← resolve push bodies
  let e ← us.foldlM (Epilogue.step h) (.new h resolved.tokens)
  let globalSigs := chunkSigs cpu e.toks
  let recs ← spanRecords cpu h.nMsgs e.cols
  let s ← (List.range h.nLocates).foldlM (Commits.step cpu e.toks (tokOff h.counts)) .new
  return {
    nMsgs := h.nMsgs
    nLocates := h.nLocates
    tokCounts := h.counts
    tokOff := tokOff h.counts
    toks := e.toks
    sigOff := s.sigOff ++ [s.sigs.length % 2 ^ 32]
    sigs := s.sigs
    sig0 := s.sig0
    states := s.states
    digest := sealDigest s.digest s.gAll
    globalSigs := globalSigs
    globalSig := sigTotal globalSigs
    chunks := s.chunks
    resolved := resolved
    resolvePush := push
    span := spanLayer cpu recs }

/-- `bake_sig_fabric`: the environment turns the push off with `0`. -/
def bakeSigFabric (cpu : Cpu) (hftOrderScan : Option String) (bodies : List (List UInt8)) :
    Except Fault Fabric := bakeSigFabricForced cpu bodies (hftOrderScan ≠ some "0")

end HftProj.Testkit.SigFabric
