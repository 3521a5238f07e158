import HftProj.Testkit.BakeTotal
import HftProj.Testkit.ResolveShapes

/-!
# The span layer of a fabric

The baked record is the composite of the message-order rows. A message of no book type adds no
bytes and no volume, but its digest goes into the payload; and the widths are the wire lengths
but for one type.
-/

namespace HftProj.Testkit.SpanField

open SigFabric (kept)

/-! ## Rows left out -/

section Marked

variable {cpu : Cpu}

/-- A power of the generator cancels. -/
theorem mulmod_tPow_eq_zero {d : BitVec 64} {k : ℕ} (h : mulmod cpu d (tPow cpu k) = 0#64) :
    d = 0#64 := by
  apply res_injective
  have hres := congrArg res h
  rw [res_mulmod, res_tPow, res_zero] at hres
  rw [res_zero]
  exact ((isUnit_root.pow k).mul_left_eq_zero).mp hres

/-- A row that moves no coordinate but the payload. -/
structure Neutral (t : Token) : Prop where
  width : wT t.ty = 0
  db : t.db = 0
  da : t.da = 0
  setp : t.setp = 0

/-- The digests of the rows left out, each carried over the widths behind it. -/
def ghost (cpu : Cpu) (rs : List (Token × Bool)) : BitVec 64 :=
  rs.foldl (fun g p => mulmod cpu g (tPow cpu (wT p.1.ty)) ^^^ if p.2 then 0 else p.1.vd) 0

theorem ghost_snoc (rs : List (Token × Bool)) (p : Token × Bool) :
    ghost cpu (rs ++ [p]) =
      mulmod cpu (ghost cpu rs) (tPow cpu (wT p.1.ty)) ^^^ if p.2 then 0 else p.1.vd := by
  rw [ghost, List.foldl_append]
  rfl

theorem kept_snoc {α : Type} (rs : List (α × Bool)) (a : α) (b : Bool) :
    kept (rs ++ [(a, b)]) = if b then kept rs ++ [a] else kept rs := by
  rw [kept, List.filter_append, List.map_append]
  cases b with
  | true => rfl
  | false => exact List.append_nil _

/-- What rows left out change: the payload, by their digests. -/
structure Shadow (cpu : Cpu) (rs : List (Token × Bool)) : Prop where
  degree : degree (rs.map Prod.fst) = degree (kept rs)
  db : (composite cpu (rs.map Prod.fst)).db = (composite cpu (kept rs)).db
  da : (composite cpu (rs.map Prod.fst)).da = (composite cpu (kept rs)).da
  px : (composite cpu (rs.map Prod.fst)).px = (composite cpu (kept rs)).px
  v : (composite cpu (rs.map Prod.fst)).v = (composite cpu (kept rs)).v ^^^ ghost cpu rs

theorem composite_snoc_v (ts : List Token) (t : Token) :
    (composite cpu (ts ++ [t])).v =
      mulmod cpu (composite cpu ts).v (tPow cpu (wT t.ty)) ^^^ t.vd := by
  rw [composite_snoc]
  rfl

theorem composite_snoc_db (ts : List Token) (t : Token) :
    (composite cpu (ts ++ [t])).db = (composite cpu ts).db + t.db := by
  rw [composite_snoc]
  rfl

theorem composite_snoc_da (ts : List Token) (t : Token) :
    (composite cpu (ts ++ [t])).da = (composite cpu ts).da + t.da := by
  rw [composite_snoc]
  rfl

theorem shadow {rs : List (Token × Bool)} (h : ∀ p ∈ rs, p.2 = false → Neutral p.1) :
    Shadow cpu rs := by
  induction rs using List.reverseRecOn with
  | nil => exact ⟨rfl, rfl, rfl, rfl, (BitVec.xor_zero).symm⟩
  | append_singleton rs p ih =>
      obtain ⟨t, b⟩ := p
      have hs := ih fun q hq => h q (List.mem_append_left _ hq)
      have hv : mulmod cpu (composite cpu (rs.map Prod.fst)).v (tPow cpu (wT t.ty)) =
          mulmod cpu (composite cpu (kept rs)).v (tPow cpu (wT t.ty)) ^^^
            mulmod cpu (ghost cpu rs) (tPow cpu (wT t.ty)) := by
        rw [hs.v, xor_mulmod]
      cases b with
      | true =>
          have hkept : kept (rs ++ [(t, true)]) = kept rs ++ [t] := kept_snoc rs t true
          constructor
          · rw [hkept, List.map_append, degree_append, degree_append, hs.degree]
            rfl
          · rw [hkept, List.map_append, List.map_singleton, composite_snoc_db, composite_snoc_db, hs.db]
          · rw [hkept, List.map_append, List.map_singleton, composite_snoc_da, composite_snoc_da, hs.da]
          · rw [hkept, List.map_append, List.map_singleton, composite_snoc_px, composite_snoc_px, hs.px]
          · rw [hkept, List.map_append, List.map_singleton, composite_snoc_v, composite_snoc_v, hv,
              ghost_snoc]
            simp only [if_true]
            ac_rfl
      | false =>
          have hkept : kept (rs ++ [(t, false)]) = kept rs := kept_snoc rs t false
          have hn := h (t, false) (List.mem_append_right _ (List.mem_singleton_self _)) rfl
          have hone (x : BitVec 64) : mulmod cpu x (tPow cpu (wT t.ty)) = x := by
            rw [hn.width]
            exact mulmod_one cpu x
          constructor
          · rw [hkept, List.map_append, degree_append, hs.degree, List.map_singleton, degree_cons,
              hn.width]
            rfl
          · rw [hkept, List.map_append, List.map_singleton, composite_snoc_db, hn.db, hs.db]
            exact add_zero _
          · rw [hkept, List.map_append, List.map_singleton, composite_snoc_da, hn.da, hs.da]
            exact add_zero _
          · rw [hkept, List.map_append, List.map_singleton, composite_snoc_px, hs.px,
              if_neg (not_not.mpr hn.setp)]
          · rw [hkept, List.map_append, List.map_singleton, composite_snoc_v, hone, hs.v,
              ghost_snoc, hone]
            exact BitVec.xor_assoc ..

end Marked

end HftProj.Testkit.SpanField

namespace HftProj.Testkit.SigFabric

open HftProj.Lib
open HftProj.Protocol
open SpanField (Cpu composite degree wT mulmod tPow Neutral ghost)

/-! ## The rows of a fabric -/

/-- The row of a message and its shape. -/
def shapeRow (p : List UInt8 × Shape) : SpanField.Token where
  ty := ty36 (p.1.getD 0 0)
  vd := spanDigest (p.1.getD 0 0) p.1
  db := p.2.d0
  da := p.2.d1
  px := BitVec.ofNat 32 p.2.pv
  setp := if p.2.prints then 1 else 0

section Rows

variable {cpu : Cpu} {bodies : List (List UInt8)} {push : Bool} {f : Fabric}

theorem spanRow_at (msg : List UInt8) (sh : Shape) {pos : ℕ} (hpos : pos ≠ 0) :
    spanRow msg (sh.at pos) = shapeRow (msg, sh) := by
  obtain ⟨prints, pv, d0, d1⟩ := sh
  cases prints with
  | true => simp [spanRow, shapeRow, Shape.at, hpos]
  | false => simp [spanRow, shapeRow, Shape.at]

theorem rows_along {us : List (ℕ × List UInt8)} (shapes : List Shape) (h : ∀ u ∈ us, u.1 ≠ 0) :
    List.zipWith spanRow (us.map Prod.snd) (tokensAlong us shapes) =
      ((us.map Prod.snd).zip shapes).map shapeRow := by
  induction us generalizing shapes with
  | nil => rfl
  | cons u us ih =>
      cases shapes with
      | nil => rfl
      | cons sh shapes =>
          have hrest := ih shapes fun v hv => h v (List.mem_cons_of_mem _ hv)
          show spanRow u.2 (sh.at u.1) :: _ = shapeRow (u.2, sh) :: _
          rw [spanRow_at u.2 sh (h u List.mem_cons_self)]
          exact congrArg (shapeRow (u.2, sh) :: ·) hrest

/-- The composed record of a fabric is the composite of its messages' rows. -/
theorem bake_composite (hbake : bakeSigFabricForced cpu bodies push = .ok f) :
    ∃ shapes, shapesFrom push .new ((stream bodies).map Prod.snd) = .ok shapes ∧
      f.span = spanLayer cpu ((chunksOf SpanField.chunkLen
        ((((stream bodies).map Prod.snd).zip shapes).map shapeRow)).map fun p =>
          (SpanField.foldCols cpu p 0).1) ∧
      f.span.spanP64 =
        composite cpu ((((stream bodies).map Prod.snd).zip shapes).map shapeRow) := by
  obtain ⟨hdecodes, hresolve, -, -, -, hspan⟩ := bake_span hbake
  obtain ⟨shapes, hshapes, htokens⟩ := resolve_shapes hresolve hdecodes
  rw [htokens, rows_along shapes fun u hu => stream_pos hu] at hspan
  refine ⟨shapes, hshapes, hspan, ?_⟩
  rw [hspan]
  have hchunk : 0 < SpanField.chunkLen := by decide
  exact (SpanField.composeRecords_parts _ (chunksOf_length_le hchunk _)).trans
    (congrArg (composite cpu) (chunksOf_flatten hchunk _))

/-- The hash of a fabric is the payload of its record. -/
theorem span_hash (hbake : bakeSigFabricForced cpu bodies push = .ok f) :
    f.span.spanHash = f.span.spanP64.v := by
  obtain ⟨shapes, -, hspan, -⟩ := bake_composite hbake
  rw [hspan]
  show SpanField.hashApplyP64 cpu 0 _ = _
  rw [SpanField.hashApplyP64]
  exact (congrArg (· ^^^ _) (SpanField.zero_mulmod cpu _)).trans BitVec.zero_xor

end Rows

/-! ## Messages left out -/

/-- The coordinates of two span layers agree. -/
def SameSpan (f f' : Fabric) : Prop :=
  f.span.spanP64.v = f'.span.spanP64.v ∧ f.span.spanP64.c = f'.span.spanP64.c ∧
    f.span.spanP64.deg = f'.span.spanP64.deg ∧ f.span.spanP64.db = f'.span.spanP64.db ∧
    f.span.spanP64.da = f'.span.spanP64.da ∧ f.span.spanP64.px = f'.span.spanP64.px ∧
    f.span.spanHash = f'.span.spanHash

/-- The payload digests of the messages left out, each carried over the wire bytes of the book
messages behind it. -/
def leftOut (cpu : Cpu) (marked : List (List UInt8 × Bool)) : BitVec 64 :=
  marked.foldl (fun g p => mulmod cpu g (tPow cpu (wT (ty36 (p.1.getD 0 0)))) ^^^
    if p.2 then 0 else spanDigest (p.1.getD 0 0) p.1) 0

section LeftOut

variable {cpu : Cpu}

/-- The marked rows of some marked messages. -/
def markedRows (marked : List (List UInt8 × Bool)) (shapes : List Shape) :
    List (SpanField.Token × Bool) :=
  (markedShapes marked shapes).map fun q => (shapeRow q.1, q.2)

theorem markedRows_fst (marked : List (List UInt8 × Bool)) (shapes : List Shape) :
    (markedRows marked shapes).map Prod.fst = ((marked.map Prod.fst).zip shapes).map shapeRow := by
  rw [markedRows, List.map_map, markedShapes]
  induction marked generalizing shapes with
  | nil => rfl
  | cons p marked ih =>
      cases shapes with
      | nil => rfl
      | cons sh shapes => exact congrArg (shapeRow (p.1, sh) :: ·) (ih shapes)

theorem markedRows_kept (marked : List (List UInt8 × Bool)) (shapes : List Shape) :
    kept (markedRows marked shapes) = (kept (markedShapes marked shapes)).map shapeRow := by
  rw [markedRows, kept, kept, List.filter_map, List.map_map, List.map_map]
  rfl

theorem markedRows_ghost {marked : List (List UInt8 × Bool)} {shapes : List Shape}
    (hlen : shapes.length = marked.length) :
    ghost cpu (markedRows marked shapes) = leftOut cpu marked := by
  suffices hall : ∀ g, (markedRows marked shapes).foldl (fun g p =>
      mulmod cpu g (tPow cpu (wT p.1.ty)) ^^^ if p.2 then 0 else p.1.vd) g =
      marked.foldl (fun g p => mulmod cpu g (tPow cpu (wT (ty36 (p.1.getD 0 0)))) ^^^
        if p.2 then 0 else spanDigest (p.1.getD 0 0) p.1) g from hall 0
  induction marked generalizing shapes with
  | nil => exact fun _ => rfl
  | cons p marked ih =>
      cases shapes with
      | nil => cases hlen
      | cons sh shapes => exact fun g => ih (Nat.succ.inj hlen) _

theorem shapeRow_neutral {p : List UInt8 × Shape} (hty : ty36 (p.1.getD 0 0) = 9)
    (hsh : p.2 = .silent) : Neutral (shapeRow p) := by
  constructor
  · show wT (ty36 (p.1.getD 0 0)) = 0
    rw [hty]
    rfl
  · show p.2.d0 = 0
    rw [hsh]
    rfl
  · show p.2.d1 = 0
    rw [hsh]
    rfl
  · show (if p.2.prints then 1 else 0 : UInt8) = 0
    rw [hsh]
    rfl

/-- A left-out message alone. -/
theorem leftOut_single (pre post : List (List UInt8)) (m : List UInt8) :
    leftOut cpu (pre.map (fun a => (a, true)) ++ (m, false) :: post.map fun a => (a, true)) = 0#64 ↔
      spanDigest (m.getD 0 0) m = 0#64 := by
  have hpre : leftOut cpu (pre.map fun a => (a, true)) = 0#64 := by
    induction pre using List.reverseRecOn with
    | nil => rfl
    | append_singleton pre a ih =>
        rw [leftOut] at ih ⊢
        rw [List.map_append, List.foldl_append, ih]
        show mulmod cpu 0#64 _ ^^^ 0#64 = 0#64
        rw [SpanField.zero_mulmod, BitVec.xor_zero]
  have hpost : ∀ g, (post.map fun a => (a, true)).foldl (fun g p =>
      mulmod cpu g (tPow cpu (wT (ty36 (p.1.getD 0 0)))) ^^^
        if p.2 then 0 else spanDigest (p.1.getD 0 0) p.1) g = 0#64 ↔ g = 0#64 := by
    induction post with
    | nil => exact fun _ => Iff.rfl
    | cons a post ih =>
        intro g
        rw [List.map_cons, List.foldl_cons, ih]
        show mulmod cpu g (tPow cpu _) ^^^ 0#64 = 0#64 ↔ g = 0#64
        rw [BitVec.xor_zero]
        constructor
        · exact SpanField.mulmod_tPow_eq_zero
        · rintro rfl
          exact SpanField.zero_mulmod cpu _
  rw [leftOut, List.foldl_append, ← leftOut, hpre, List.foldl_cons, hpost]
  show mulmod cpu 0#64 _ ^^^ spanDigest (m.getD 0 0) m = 0#64 ↔ _
  rw [SpanField.zero_mulmod, BitVec.zero_xor]

end LeftOut

/-- The payload tells what was left out. -/
theorem sameSpan_iff {cpu : Cpu} {push : Bool} {bodies bodies' : List (List UInt8)} {f f' : Fabric}
    (hbake : bakeSigFabricForced cpu bodies push = .ok f)
    (hbake' : bakeSigFabricForced cpu bodies' push = .ok f')
    {marked : List (List UInt8 × Bool)} (hall : marked.map Prod.fst = (stream bodies).map Prod.snd)
    (hkept : kept marked = (stream bodies').map Prod.snd) (hdrops : Drops marked) :
    SameSpan f f' ↔ leftOut cpu marked = 0#64 := by
  obtain ⟨shapes, hshapes, -, hp⟩ := bake_composite hbake
  obtain ⟨shapes', hshapes', -, hp'⟩ := bake_composite hbake'
  have hlen := shapesFrom_length hshapes
  rw [← hall] at hshapes hp hlen
  rw [List.length_map] at hlen
  obtain ⟨⟨shapes₁, hshapes₁, hzip⟩, hsilent⟩ := shapesFrom_kept hdrops hshapes
  rw [hkept, hshapes'] at hshapes₁
  cases hshapes₁
  rw [← hkept, hzip, ← markedRows_kept] at hp'
  rw [← markedRows_fst] at hp
  have hs : SpanField.Shadow cpu (markedRows marked shapes) := by
    apply SpanField.shadow
    intro p hp hfalse
    obtain ⟨q, hq, rfl⟩ := List.mem_map.mp hp
    obtain ⟨hty, hsh⟩ := hsilent q hq hfalse
    exact shapeRow_neutral hty hsh
  have hv := hs.v
  rw [markedRows_ghost hlen, ← hp, ← hp'] at hv
  have hiff : f.span.spanP64.v = f'.span.spanP64.v ↔ leftOut cpu marked = 0#64 := by
    rw [hv]
    constructor
    · intro heq
      rwa [← BitVec.xor_zero (x := f'.span.spanP64.v), BitVec.xor_assoc, BitVec.xor_right_inj,
        BitVec.zero_xor] at heq
    · intro hzero
      rw [hzero]
      exact BitVec.xor_zero
  constructor
  · exact fun h => hiff.mp h.1
  · intro hzero
    have hsamev := hiff.mpr hzero
    refine ⟨hsamev, ?_, ?_, ?_, ?_, ?_, ?_⟩
    · rw [hp, hp', SpanField.composite_c, SpanField.composite_c, hs.degree]
    · rw [hp, hp', SpanField.composite_deg, SpanField.composite_deg, hs.degree]
    · rw [hp, hp', hs.db]
    · rw [hp, hp', hs.da]
    · rw [hp, hp', hs.px]
    · rw [span_hash hbake, span_hash hbake', hsamev]

/-- Leaving out messages of no book type leaves the span layer as it is exactly where their
payload digests, carried over the bytes behind them, cancel: for one message, where its digest
is 0. -/
theorem span_unchanged_iff (cpu : Cpu) (push : Bool) {bodies bodies' : List (List UInt8)}
    {f f' : Fabric} (hbake : bakeSigFabricForced cpu bodies push = .ok f)
    (hbake' : bakeSigFabricForced cpu bodies' push = .ok f')
    {marked : List (List UInt8 × Bool)} (hall : marked.map Prod.fst = (stream bodies).map Prod.snd)
    (hkept : kept marked = (stream bodies').map Prod.snd) (hdrops : Drops marked) :
    (SameSpan f f' ↔ leftOut cpu marked = 0#64) ∧
      ∀ (pre post : List (List UInt8)) (m : List UInt8),
        marked = pre.map (fun a => (a, true)) ++ (m, false) :: post.map (fun a => (a, true)) →
          (SameSpan f f' ↔ spanDigest (m.getD 0 0) m = 0#64) := by
  have hsame := sameSpan_iff hbake hbake' hall hkept hdrops
  refine ⟨hsame, fun pre post m heq => ?_⟩
  rw [hsame, heq]
  exact leftOut_single pre post m

/-- A system event, shorter than a digest. -/
def systemEvent : List UInt8 := 'S'.toUInt8 :: List.replicate 11 0

theorem stream_one {msg : List UInt8} {lo : UInt8} (h : fromBeBytes [0, lo] = msg.length) :
    stream [0 :: lo :: msg] = [(1, msg)] := by
  rw [stream, List.flatMap_singleton, units_single h]
  rfl

theorem decodes_one {msg : List UInt8} (h : Itch5.validate msg = .ok ()) :
    Decodes [(1, msg)] := by
  intro u hu
  rw [List.mem_singleton.mp hu]
  exact decode_of_validate h

theorem span_unchanged_iff_systemEvent :
    ∃ f f', bakeSigFabricForced ⟨true, true, true⟩ [0 :: 12 :: systemEvent] true = .ok f ∧
      bakeSigFabricForced ⟨true, true, true⟩ [] true = .ok f' ∧ SameSpan f f' := by
  have hstream : stream [0 :: 12 :: systemEvent] = [(1, systemEvent)] := stream_one (by decide)
  obtain ⟨f, hf⟩ := bake_returns ⟨true, true, true⟩
    (hstream ▸ decodes_one (by decide)) (by rw [hstream]; decide)
  obtain ⟨f', hf'⟩ := @bake_returns ⟨true, true, true⟩ [] nofun (by decide)
  have hiff := (span_unchanged_iff ⟨true, true, true⟩ true hf hf'
    (show [(systemEvent, false)].map Prod.fst = _ by rw [hstream]; rfl) rfl (by
      intro p hp _
      rw [List.mem_singleton.mp hp]
      decide)).2 [] [] systemEvent rfl
  exact ⟨f, f', hf, hf', hiff.mpr (by decide)⟩

/-- A trading action, all zeros behind its type. -/
def tradingAction : List UInt8 := 'H'.toUInt8 :: List.replicate 24 0

/-- The trading action is a valid message of no book type, and its digest changes the payload. -/
theorem trading_action_changes_span : Itch5.validate tradingAction = .ok () ∧
    ty36 (tradingAction.getD 0 0) = 9 ∧
    ∃ f f', bakeSigFabricForced ⟨true, true, true⟩ [0 :: 25 :: tradingAction] true = .ok f ∧
      bakeSigFabricForced ⟨true, true, true⟩ [] true = .ok f' ∧ ¬SameSpan f f' := by
  have hvalid : Itch5.validate tradingAction = .ok () := by decide
  have hty : ty36 (tradingAction.getD 0 0) = 9 := by decide
  have hstream : stream [0 :: 25 :: tradingAction] = [(1, tradingAction)] := stream_one (by decide)
  obtain ⟨f, hf⟩ := bake_returns ⟨true, true, true⟩
    (hstream ▸ decodes_one hvalid) (by rw [hstream]; decide)
  obtain ⟨f', hf'⟩ := @bake_returns ⟨true, true, true⟩ [] nofun (by decide)
  refine ⟨hvalid, hty, f, f', hf, hf', ?_⟩
  have hdrops : Drops [(tradingAction, false)] := by
    intro p hp _
    rw [List.mem_singleton.mp hp]
    exact hty
  have hall : [(tradingAction, false)].map Prod.fst =
      (stream [0 :: 25 :: tradingAction]).map Prod.snd := by
    rw [hstream]
    rfl
  have hsingle := @leftOut_single ⟨true, true, true⟩ [] [] tradingAction
  rw [sameSpan_iff hf hf' hall rfl hdrops]
  intro hzero
  exact absurd (hsingle.mp hzero) (by decide)

/-! ## Wire bytes -/

/-- A book message, by its type byte. -/
def isBook (msg : List UInt8) : Bool := ty36 (msg.getD 0 0) ≠ 9

/-- The wire length of the book messages. -/
def wireBytes (ms : List (List UInt8)) : ℕ := ((ms.filter isBook).map List.length).sum

/-- The widths that the fold's table gives the messages. -/
def tableBytes (ms : List (List UInt8)) : ℕ := (ms.map fun m => wT (ty36 (m.getD 0 0))).sum

/-- The degrees are the wire bytes: of the stream, and of each chunk. -/
def SpanBytes (ms : List (List UInt8)) (f : Fabric) : Prop :=
  f.span.spanP64.deg.toNat = wireBytes ms ∧
    List.Forall₂ (fun chunk rec => rec.w.toNat = wireBytes chunk)
      (chunksOf SpanField.chunkLen ms) f.span.spanRecs

section Bytes

variable {cpu : Cpu} {ms : List (List UInt8)}

/-- The table and the validator part at one type. -/
theorem width_eq {m : List UInt8} (h : Itch5.validate m = .ok ()) :
    (if isBook m then m.length else 0) =
      wT (ty36 (m.getD 0 0)) + if m.getD 0 0 = 'P'.toUInt8 then 1 else 0 := by
  have htable : ∀ t ∈ bookTypes, ty36 t ≠ 9 ∧
      Itch5.LENGTH t = wT (ty36 t) + if t = 'P'.toUInt8 then 1 else 0 :=
    List.forall_iff_forall_mem.mp (by decide)
  by_cases hmem : m.getD 0 0 ∈ bookTypes
  · obtain ⟨hty, hlen⟩ := htable _ hmem
    have hbook : isBook m = true := decide_eq_true hty
    rw [hbook, if_pos rfl, Itch5.validate_exact h, hlen]
  · have hty : ty36 (m.getD 0 0) = 9 := by
      simp only [bookTypes, List.mem_cons, List.not_mem_nil, or_false, not_or] at hmem
      simp only [ty36, hmem, if_false]
    have hbook : isBook m = false := decide_eq_false (not_not.mpr hty)
    have hprint : m.getD 0 0 ≠ 'P'.toUInt8 := fun heq => hmem (by rw [heq]; decide)
    rw [hbook, hty, if_neg hprint]
    rfl

theorem wireBytes_cons (m : List UInt8) (ms : List (List UInt8)) :
    wireBytes (m :: ms) = (if isBook m then m.length else 0) + wireBytes ms := by
  rw [wireBytes, List.filter_cons]
  cases isBook m with
  | true => rfl
  | false => exact (Nat.zero_add _).symm

theorem wireBytes_eq (h : ∀ m ∈ ms, Itch5.validate m = .ok ()) :
    wireBytes ms = tableBytes ms + ms.countP fun m => m.getD 0 0 = 'P'.toUInt8 := by
  induction ms with
  | nil => rfl
  | cons m ms ih =>
      have hrest := ih fun a ha => h a (List.mem_cons_of_mem _ ha)
      have htable : tableBytes (m :: ms) = wT (ty36 (m.getD 0 0)) + tableBytes ms := rfl
      rw [wireBytes_cons, width_eq (h m List.mem_cons_self), hrest, htable, List.countP_cons]
      simp only [decide_eq_true_eq]
      omega

theorem degree_rows (zs : List (List UInt8 × Shape)) :
    degree (zs.map shapeRow) = tableBytes (zs.map Prod.fst) := by
  rw [degree, tableBytes, List.map_map, List.map_map]
  rfl

theorem foldCols_w {p : List SpanField.Token} (hlen : p.length ≤ SpanField.chunkLen) :
    (SpanField.foldCols cpu p 0).1.w.toNat = degree p := by
  have hfits := SpanField.composite_degree_fits hlen
  rw [SpanField.foldCols]
  split
  · rename_i hzero
    rw [List.length_eq_zero_iff.mp hzero]
    rfl
  · have hw := (@SpanField.staticWalk_spec cpu p).1
    show (BitVec.ofNat 16 (p.foldl SpanField.StaticWalk.step .new).w).toNat = degree p
    rw [hw, BitVec.toNat_ofNat, Nat.mod_eq_of_lt hfits]

theorem no_print (hno : ∀ m ∈ ms, m.getD 0 0 ≠ 'P'.toUInt8) :
    (ms.countP fun m => m.getD 0 0 = 'P'.toUInt8) = 0 := by
  apply List.countP_eq_zero.mpr
  intro m hm
  rw [decide_eq_true_eq]
  exact hno m hm

theorem spanBytes_iff {push : Bool} {bodies : List (List UInt8)} {f : Fabric}
    (hvalid : Valid (stream bodies)) (hbake : bakeSigFabricForced cpu bodies push = .ok f) :
    SpanBytes ((stream bodies).map Prod.snd) f ↔
      (∀ m ∈ (stream bodies).map Prod.snd, m.getD 0 0 ≠ 'P'.toUInt8) ∧
        wireBytes ((stream bodies).map Prod.snd) < 2 ^ 32 := by
  have hmsgs : ∀ m ∈ (stream bodies).map Prod.snd, Itch5.validate m = .ok () := by
    intro m hm
    obtain ⟨u, hu, rfl⟩ := List.mem_map.mp hm
    exact hvalid u hu
  obtain ⟨shapes, hshapes, hspan, hp⟩ := bake_composite hbake
  have hfst : (((stream bodies).map Prod.snd).zip shapes).map Prod.fst =
      (stream bodies).map Prod.snd := List.map_fst_zip (shapesFrom_length hshapes).ge
  have hdeg : f.span.spanP64.deg.toNat = tableBytes ((stream bodies).map Prod.snd) % 2 ^ 32 := by
    rw [hp, SpanField.composite_deg, BitVec.toNat_ofNat, degree_rows, hfst]
  have hwire := wireBytes_eq hmsgs
  constructor
  · rintro ⟨htotal, -⟩
    rw [hdeg] at htotal
    have hle := Nat.mod_le (tableBytes ((stream bodies).map Prod.snd)) (2 ^ 32)
    have hlt := Nat.mod_lt (tableBytes ((stream bodies).map Prod.snd)) (Nat.two_pow_pos 32)
    refine ⟨fun m hm heq => ?_, by omega⟩
    have hnone : (((stream bodies).map Prod.snd).countP fun m => m.getD 0 0 = 'P'.toUInt8) = 0 := by
      omega
    exact List.countP_eq_zero.mp hnone m hm (decide_eq_true heq)
  · rintro ⟨hno, hfits⟩
    rw [no_print hno, Nat.add_zero] at hwire
    refine ⟨by rw [hdeg, ← hwire, Nat.mod_eq_of_lt hfits], ?_⟩
    have hrecs : f.span.spanRecs = (chunksOf SpanField.chunkLen
        (((stream bodies).map Prod.snd).zip shapes)).map fun q =>
          (SpanField.foldCols cpu (q.map shapeRow) 0).1 := by
      rw [hspan, chunksOf_map, List.map_map]
      rfl
    rw [hrecs, ← hfst, chunksOf_map, hfst, List.forall₂_map_left_iff, List.forall₂_map_right_iff,
      List.forall₂_same]
    intro q hq
    have hchunk : 0 < SpanField.chunkLen := by decide
    have hsub : ∀ m ∈ q.map Prod.fst, m ∈ (stream bodies).map Prod.snd := by
      intro m hm
      obtain ⟨z, hz, rfl⟩ := List.mem_map.mp hm
      have hmem := List.mem_flatten_of_mem hq hz
      rw [chunksOf_flatten hchunk] at hmem
      rw [← hfst]
      exact List.mem_map_of_mem hmem
    have hlen := chunksOf_length_le hchunk _ q hq
    rw [foldCols_w (by rwa [List.length_map]), degree_rows,
      wireBytes_eq fun m hm => hmsgs m (hsub m hm), no_print fun m hm => hno m (hsub m hm),
      Nat.add_zero]

end Bytes

/-- The degrees are the wire bytes of the book messages exactly where there is no P among them
and the total fits its field. -/
theorem span_degree_is_wire_bytes_iff (cpu : Cpu) (push : Bool) {bodies : List (List UInt8)}
    {f : Fabric} (hvalid : Valid (stream bodies))
    (hbake : bakeSigFabricForced cpu bodies push = .ok f) :
    SpanBytes ((stream bodies).map Prod.snd) f ↔
      (∀ m ∈ (stream bodies).map Prod.snd, m.getD 0 0 ≠ 'P'.toUInt8) ∧
        wireBytes ((stream bodies).map Prod.snd) < 2 ^ 32 := spanBytes_iff hvalid hbake

theorem span_degree_is_wire_bytes_iff_delete :
    ∃ f, bakeSigFabricForced ⟨true, true, true⟩ [0 :: 19 :: deleteZero] true = .ok f ∧
      SpanBytes [deleteZero] f := by
  have hstream : stream [0 :: 19 :: deleteZero] = [(1, deleteZero)] := stream_one (by decide)
  have hvalid : Valid (stream [0 :: 19 :: deleteZero]) := by
    rw [hstream]
    intro u hu
    rw [List.mem_singleton.mp hu]
    decide
  obtain ⟨f, hf⟩ := bake_returns ⟨true, true, true⟩ hvalid.decodes (by rw [hstream]; decide)
  have hiff := span_degree_is_wire_bytes_iff ⟨true, true, true⟩ true hvalid hf
  rw [hstream] at hiff
  refine ⟨f, hf, hiff.mpr ⟨?_, by decide⟩⟩
  intro m hm
  rw [List.mem_singleton.mp hm]
  decide

/-- A trade, all zeros behind its type. -/
def tradeMessage : List UInt8 := 'P'.toUInt8 :: List.replicate 43 0

/-- The trade is a valid message of 44 bytes, and the table counts 43. -/
theorem trade_is_short_one_byte : Itch5.validate tradeMessage = .ok () ∧
    ∃ f, bakeSigFabricForced ⟨true, true, true⟩ [0 :: 44 :: tradeMessage] true = .ok f ∧
      ¬SpanBytes [tradeMessage] f := by
  have hstream : stream [0 :: 44 :: tradeMessage] = [(1, tradeMessage)] := stream_one (by decide)
  have hvalid : Valid (stream [0 :: 44 :: tradeMessage]) := by
    rw [hstream]
    intro u hu
    rw [List.mem_singleton.mp hu]
    decide
  obtain ⟨f, hf⟩ := bake_returns ⟨true, true, true⟩ hvalid.decodes (by rw [hstream]; decide)
  refine ⟨by decide, f, hf, fun hbytes => ?_⟩
  have hiff := spanBytes_iff hvalid hf
  rw [hstream] at hiff
  exact (hiff.mp hbytes).1 tradeMessage (List.mem_singleton_self _) (by decide)

end HftProj.Testkit.SigFabric
