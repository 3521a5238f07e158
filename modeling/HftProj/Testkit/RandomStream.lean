import HftProj.Lib.Arena
import HftProj.Lib.Stateful
import HftProj.Lib.SwapPool
import HftProj.Protocol.RoundTrip
import HftProj.Testkit.SigFabric

/-!
# The random stream

A seeded synthesizer of ITCH messages. Births go to a pool of live orders that is capped, and the
executions, cancels, deletes and replaces draw their reference from it. The resolve stage keeps a
table of its own; the pool agrees with it on every order that it holds.
-/

namespace HftProj.Testkit.RandomStream

open HftProj.Lib
open HftProj.Lib.Stateful
open HftProj.Protocol
open HftProj.Protocol.Moldudp64

/-! ## The draws -/

structure SplitMix64 where
  s : UInt64
  deriving DecidableEq

def SplitMix64.next (g : SplitMix64) : UInt64 × SplitMix64 :=
  let s := g.s + 0x9E3779B97F4A7C15
  let z := (s ^^^ (s >>> 30)) * 0xBF58476D1CE4E5B9
  let z := (z ^^^ (z >>> 27)) * 0x94D049BB133111EB
  (z ^^^ (z >>> 31), ⟨s⟩)

/-- The spec length of each type that the generator emits. -/
def bodyLen (ty : UInt8) : Option ℕ :=
  if ty = 'A'.toUInt8 then some 36
  else if ty = 'E'.toUInt8 then some 31
  else if ty = 'C'.toUInt8 then some 36
  else if ty = 'X'.toUInt8 then some 23
  else if ty = 'D'.toUInt8 then some 19
  else if ty = 'U'.toUInt8 then some 35
  else none

def POOL_CAP : ℕ := 4096

/-- The state of a tape: the live orders are the first `poolN` pairs of reference and remaining
quantity. -/
structure TapeGen where
  rng : SplitMix64
  pool : ℕ → ℕ × ℕ
  poolN : ℕ
  nextRef : ℕ
  prices : List ℕ
  symbols : List (List UInt8)
  tsNs : ℕ
  msgI : ℕ
  matchNo : ℕ

/-- A step of the synthesis; `none` is a panic. -/
abbrev Gen := StateT TapeGen Option

def panic {α : Type} : Gen α := fun _ => none

def hexDigits : List UInt8 :=
  ['0', '1', '2', '3', '4', '5', '6', '7', '8', '9', 'A', 'B', 'C', 'D', 'E', 'F'].map Char.toUInt8

/-- The locate's four hex digits in the symbol's tail. -/
def symbol (i : ℕ) : List UInt8 :=
  (List.range 4).foldl (fun sym k => sym.set (6 - k) (hexDigits.getD ((i >>> (k * 4)) % 16) 0))
    (['R', 'N', 'D', 'S', 'Y', 'M', ' ', ' '].map Char.toUInt8)

/-- The mid-price seeds. -/
@[grind =]
def startPrices : ℕ → SplitMix64 → List ℕ × SplitMix64
  | 0, rng => ([], rng)
  | n + 1, rng =>
      let (d, rng) := rng.next
      let (prices, rng) := startPrices n rng
      ((1000000 + d.toNat % 899000000) :: prices, rng)

def TapeGen.new (seed : UInt64) (nLocates : ℕ) : TapeGen where
  rng := (startPrices nLocates ⟨seed⟩).2
  pool := fun _ => (0, 0)
  poolN := 0
  nextRef := 1
  prices := (startPrices nLocates ⟨seed⟩).1
  symbols := (List.range nLocates).map symbol
  tsNs := 3600000000000000
  msgI := 0
  matchNo := 1

def next : Gen ℕ := fun g => some (g.rng.next.1.toNat, { g with rng := g.rng.next.2 })

def below (n : ℕ) : Gen ℕ := do
  let d ← next
  if n = 0 then panic else return d % n

/-- The weighted mix; a cold pool degrades to a birth. -/
def nextType : Gen UInt8 := do
  let g ← get
  if g.poolN = 0 then return 'A'.toUInt8
  else
    let d ← below 100
    return if d ≤ 33 then 'A'.toUInt8
      else if d ≤ 55 then 'E'.toUInt8
      else if d ≤ 61 then 'C'.toUInt8
      else if d ≤ 77 then 'X'.toUInt8
      else if d ≤ 95 then 'D'.toUInt8
      else 'U'.toUInt8

def pickLocate : Gen ℕ := do
  let d ← next
  let g ← get
  let n := if d % 2 = 0 then max (g.prices.length / 4) 1 else g.prices.length
  if n = 0 then panic else return d / 2 % n % 2 ^ 16

def walkPrice (locate : ℕ) : Gen ℕ := do
  let step := 1 + (← next) % 99
  let dir : ℤ := if (← next) % 2 = 0 then -1 else 1
  let g ← get
  match g.prices[locate]? with
  | none => panic
  | some price =>
      let p := (max 10000 (min (price + dir * step) 4000000000) : ℤ).toNat
      set { g with prices := g.prices.set locate p }
      return p

/-! ## The pool -/

def swapRemove (idx : ℕ) (g : TapeGen) : TapeGen :=
  { g with
    pool := Function.update g.pool idx (g.pool (g.poolN - 1))
    poolN := g.poolN - 1 }

/-- A birth beyond the cap is forgotten. -/
def push (oref shares : ℕ) (g : TapeGen) : TapeGen :=
  if g.poolN < POOL_CAP then
    { g with
      pool := Function.update g.pool g.poolN (oref, shares)
      poolN := g.poolN + 1 }
  else g

/-- The effect of an execution or a cancel on the pool. -/
def consume (idx remaining shareDraw : ℕ) (g : TapeGen) : TapeGen :=
  if remaining ≤ shareDraw then swapRemove idx g
  else
    { g with pool := Function.update g.pool idx ((g.pool idx).1, remaining - shareDraw) }

/-- E, C and X carry the drawn quantity; D and U take the order out whole. -/
def applyDraw (idx remaining shareDraw : ℕ) (out : List UInt8) : Gen (List UInt8) := do
  let ty := out.getD 0 0
  if ty = 'E'.toUInt8 ∨ ty = 'C'.toUInt8 ∨ ty = 'X'.toUInt8 then
    modify (consume idx remaining shareDraw)
    return writeAt out 19 (toBeBytes 4 shareDraw)
  else
    modify (swapRemove idx)
    return out

/-- Draw a live reference and write it, with the effect of the type in the first byte. -/
def reference (out : List UInt8) : Gen (List UInt8) := do
  let idx ← below (← get).poolN
  let (r, remaining) := (← get).pool idx
  let shareDraw := (1 + (← below (max remaining 1)) % 2 ^ 32) % 2 ^ 32
  let out ← applyDraw idx remaining shareDraw out
  return writeAt out 11 (toBeBytes 8 r)

/-! ## The bodies -/

/-- A fresh order reference. -/
def freshRef : Gen ℕ := do
  let g ← get
  set { g with nextRef := (g.nextRef + 1) % 2 ^ 64 }
  return g.nextRef

def freshMatch : Gen ℕ := do
  let g ← get
  set { g with matchNo := (g.matchNo + 1) % 2 ^ 64 }
  return g.matchNo

/-- The common header: type, locate, tracking, and the low 48 bits of the timestamp. -/
def header (g : TapeGen) (ty : UInt8) (locate : ℕ) (out : List UInt8) : List UInt8 :=
  writeAt (writeAt (writeAt (writeAt out 0 [ty]) 1 (toBeBytes 2 locate)) 3 (toBeBytes 2 g.msgI))
    5 (toBeBytes 6 g.tsNs)

def addArm (locate : ℕ) (side : UInt8) (out : List UInt8) : Gen (List UInt8) := do
  let r ← freshRef
  let shares := 1 + (← below 10000)
  let out := writeAt out 11 (toBeBytes 8 r)
  let out := writeAt out 19 [side]
  let out := writeAt out 20 (toBeBytes 4 shares)
  let g ← get
  match g.symbols[locate]? with
  | none => panic
  | some sym =>
      let out := writeAt out 24 sym
      let px ← walkPrice locate
      modify (push r shares)
      return writeAt out 32 (toBeBytes 4 px)

def executedArm (out : List UInt8) : Gen (List UInt8) := do
  let out ← reference out
  let m ← freshMatch
  return writeAt out 23 (toBeBytes 8 m)

def executedPxArm (locate : ℕ) (out : List UInt8) : Gen (List UInt8) := do
  let out ← reference out
  let m ← freshMatch
  let out := writeAt out 23 (toBeBytes 8 m)
  let out := writeAt out 31 ['Y'.toUInt8]
  let px ← walkPrice locate
  return writeAt out 32 (toBeBytes 4 px)

def replaceArm (locate : ℕ) (out : List UInt8) : Gen (List UInt8) := do
  let out ← reference out
  let newRef ← freshRef
  let out := writeAt out 19 (toBeBytes 8 newRef)
  let shares := 1 + (← below 10000)
  let out := writeAt out 27 (toBeBytes 4 shares)
  let px ← walkPrice locate
  modify (push newRef shares)
  return writeAt out 31 (toBeBytes 4 px)

/-- The body of each type; the caller draws a tabled type. -/
def arm (ty : UInt8) (locate : ℕ) (side : UInt8) (out : List UInt8) : Gen (List UInt8) :=
  if ty = 'A'.toUInt8 then addArm locate side out
  else if ty = 'E'.toUInt8 then executedArm out
  else if ty = 'C'.toUInt8 then executedPxArm locate out
  else if ty = 'X'.toUInt8 then reference out
  else if ty = 'D'.toUInt8 then reference out
  else if ty = 'U'.toUInt8 then replaceArm locate out
  else panic

/-- Synthesize one message into the slice for its type. -/
def genBody (out : List UInt8) (ty : UInt8) : Gen (List UInt8) := do
  let locate ← pickLocate
  let out := header (← get) ty locate out
  let advance ← below 361
  modify fun g => { g with tsNs := (g.tsNs + (40 + advance)) % 2 ^ 64 }
  let side := if (← next) % 2 = 0 then 'B'.toUInt8 else 'S'.toUInt8
  let out ← arm ty locate side out
  modify fun g => { g with msgI := (g.msgI + 1) % 2 ^ 64 }
  return out

/-! ## The tape -/

/-- A tape under construction; all bodies are synthesized in one buffer. -/
structure TapeBuild where
  gen : TapeGen
  body : List UInt8
  tape : List UInt8

def TapeBuild.new (seed : UInt64) (nLocates : ℕ) : TapeBuild :=
  ⟨TapeGen.new seed nLocates, List.replicate 36 0, []⟩

/-- One message more. -/
def TapeBuild.emit (b : TapeBuild) : Option TapeBuild := do
  let (ty, g) ← nextType b.gen
  let len ← bodyLen ty
  let (out, g) ← genBody (b.body.take len) ty g
  return ⟨g, writeAt b.body 0 out, b.tape ++ (toBeBytes 2 len ++ out)⟩

/-- The tape after its first messages. -/
def TapeBuild.after (seed : UInt64) (nLocates : ℕ) : ℕ → Option TapeBuild
  | 0 => some (TapeBuild.new seed nLocates)
  | k + 1 => TapeBuild.after seed nLocates k >>= TapeBuild.emit

def buildRandomTape (seed : UInt64) (totalMsgs nLocates : ℕ) : Option (List UInt8) :=
  (TapeBuild.after seed nLocates totalMsgs).map TapeBuild.tape

/-! ## What the draws leave alone -/

section Draws

/-- The pool, the references and the tables of the symbols stay. -/
structure Beside (g g' : TapeGen) : Prop where
  pool : g'.pool = g.pool
  poolN : g'.poolN = g.poolN
  nextRef : g'.nextRef = g.nextRef
  prices : g'.prices.length = g.prices.length
  symbols : g'.symbols = g.symbols

theorem Beside.refl (g : TapeGen) : Beside g g := ⟨rfl, rfl, rfl, rfl, rfl⟩

theorem Beside.trans {g g' g'' : TapeGen} (h : Beside g g') (h' : Beside g' g'') :
    Beside g g'' where
  pool := h'.pool.trans h.pool
  poolN := h'.poolN.trans h.poolN
  nextRef := h'.nextRef.trans h.nextRef
  prices := h'.prices.trans h.prices
  symbols := h'.symbols.trans h.symbols

/-- At least one locate, and a symbol of eight bytes for each. -/
structure Shaped (g : TapeGen) : Prop where
  prices : 0 < g.prices.length
  symbols : g.symbols.length = g.prices.length
  symbol : ∀ s ∈ g.symbols, s.length = 8

variable {g : TapeGen}

theorem next_yields (g : TapeGen) : Yields next g fun _ g' => Beside g g' :=
  ⟨_, _, rfl, rfl, rfl, rfl, rfl, rfl⟩

theorem below_yields (g : TapeGen) {n : ℕ} (hn : 0 < n) :
    Yields (below n) g fun d g' => d < n ∧ Beside g g' := by
  apply (next_yields g).bind
  intro d g' hg'
  rw [if_neg (Nat.ne_of_gt hn)]
  exact .pure ⟨Nat.mod_lt d hn, hg'⟩

theorem pickLocate_yields (h : Shaped g) :
    Yields pickLocate g fun locate g' => locate < g.prices.length ∧ Beside g g' := by
  apply (next_yields g).bind
  intro d g' hg'
  apply Yields.get_bind
  dsimp only
  rw [hg'.prices]
  have hpos := h.prices
  generalize hn : (if d % 2 = 0 then max (g.prices.length / 4) 1 else g.prices.length) = n
  have hbound : 0 < n ∧ n ≤ g.prices.length := by
    rw [← hn]
    split <;> omega
  rw [if_neg (Nat.ne_of_gt hbound.1)]
  have hlt : d / 2 % n < n := Nat.mod_lt _ hbound.1
  have hle : d / 2 % n % 2 ^ 16 ≤ d / 2 % n := Nat.mod_le _ _
  exact .pure ⟨by omega, hg'⟩

theorem walkPrice_yields {locate : ℕ} (h : locate < g.prices.length) :
    Yields (walkPrice locate) g fun _ g' => Beside g g' := by
  apply (next_yields g).bind
  intro d g₁ h₁
  apply (next_yields g₁).bind
  intro d' g₂ h₂
  apply Yields.get_bind
  have hprices := h₂.prices.trans h₁.prices
  rw [List.getElem?_eq_getElem (by rwa [hprices])]
  have hset : ∀ p, Beside g₂ { g₂ with prices := g₂.prices.set locate p } :=
    fun p => ⟨rfl, rfl, rfl, List.length_set, rfl⟩
  exact .set_bind (.pure ((h₁.trans h₂).trans (hset _)))

end Draws

/-! ## The pool and the register file -/

section Pool

open SwapPool

/-- The live pool's orders have references of their own, all born so far, and stand in the
register file with the remaining quantity that the pool says. -/
structure Agrees (g : TapeGen) (f : RegisterFile) (births : ℕ) : Prop extends Shaped g where
  distinct : Distinct Prod.fst g.pool g.poolN
  nextRef : g.nextRef = (1 + births) % 2 ^ 64
  born : ∀ e, Member g.pool g.poolN e → 1 ≤ e.1 ∧ e.1 ≤ births
  quantity : ∀ e, Member g.pool g.poolN e → 1 ≤ e.2 ∧ e.2 ≤ 10000
  live : ∀ e, Member g.pool g.poolN e → (f e.1).map Register.rem = some e.2

variable {g g' : TapeGen} {f : RegisterFile} {births idx : ℕ}

theorem Agrees.beside (h : Agrees g f births) (hg : Beside g g') : Agrees g' f births where
  prices := by rw [hg.prices]; exact h.prices
  symbols := by rw [hg.symbols, hg.prices]; exact h.symbols
  symbol := by rw [hg.symbols]; exact h.symbol
  distinct := by rw [hg.pool, hg.poolN]; exact h.distinct
  nextRef := by rw [hg.nextRef]; exact h.nextRef
  born := by rw [hg.pool, hg.poolN]; exact h.born
  quantity := by rw [hg.pool, hg.poolN]; exact h.quantity
  live := by rw [hg.pool, hg.poolN]; exact h.live

/-- An order taken out of the pool may change in the register file. -/
theorem Agrees.swapRemove (h : Agrees g f births) (hidx : idx < g.poolN) (v : Option Register) :
    Agrees (swapRemove idx g) (Function.update f (g.pool idx).1 v) births where
  toShaped := ⟨h.prices, h.symbols, h.symbol⟩
  distinct := h.distinct.remove hidx
  nextRef := h.nextRef
  born := fun e he => h.born e ((h.distinct.member_remove hidx).mp he).1
  quantity := fun e he => h.quantity e ((h.distinct.member_remove hidx).mp he).1
  live := fun e he => by
    obtain ⟨hmem, hne⟩ := (h.distinct.member_remove hidx).mp he
    rw [Function.update_of_ne hne]
    exact h.live e hmem

/-- What remains of an order is the same on both sides. -/
theorem Agrees.consume {remaining q : ℕ} {r : Register} (h : Agrees g f births)
    (hidx : idx < g.poolN) (hq : 1 ≤ q) (hr : f (g.pool idx).1 = some r)
    (hrem : (g.pool idx).2 = remaining) :
    Agrees (consume idx remaining q g) (Function.update f (g.pool idx).1 (some (r.reduce q)))
      births := by
  have hmember : Member g.pool g.poolN (g.pool idx) := member_at hidx
  have hlive := h.live _ hmember
  rw [hr, Option.map_some, hrem, Option.some_inj] at hlive
  rw [RandomStream.consume]
  split
  · exact h.swapRemove hidx _
  · next hleft =>
    have hset (e : ℕ × ℕ) :
        Member (Function.update g.pool idx ((g.pool idx).1, remaining - q)) g.poolN e ↔
          e = ((g.pool idx).1, remaining - q) ∨
            Member g.pool g.poolN e ∧ e.1 ≠ (g.pool idx).1 :=
      h.distinct.member_set hidx rfl
    have hquantity := h.quantity _ hmember
    exact
      { toShaped := ⟨h.prices, h.symbols, h.symbol⟩
        distinct := h.distinct.set rfl
        nextRef := h.nextRef
        born := fun e he => by
          obtain rfl | ⟨hmem, -⟩ := (hset e).mp he
          · exact h.born (g.pool idx) hmember
          · exact h.born e hmem
        quantity := fun e he => by
          obtain rfl | ⟨hmem, -⟩ := (hset e).mp he
          · dsimp only
            omega
          · exact h.quantity e hmem
        live := fun e he => by
          obtain rfl | ⟨hmem, hne⟩ := (hset e).mp he
          · rw [Function.update_self, Option.map_some, Register.reduce, hlive]
          · rw [Function.update_of_ne hne]
            exact h.live e hmem }

/-- The next birth's reference is in neither the pool nor beyond the counter's range. -/
theorem Agrees.birth {shares : ℕ} (h : Agrees g f births) (hb : births + 1 < 2 ^ 64)
    (hs : 1 ≤ shares ∧ shares ≤ 10000) {r : Register} (hr : r.rem = shares)
    (hg : Beside { g with nextRef := (g.nextRef + 1) % 2 ^ 64 } g') :
    Agrees (push g.nextRef shares g') (Function.update f g.nextRef (some r)) (births + 1) := by
  have href : g.nextRef = births + 1 := by
    rw [h.nextRef, Nat.mod_eq_of_lt] <;> omega
  have hne : ∀ e, Member g.pool g.poolN e → e.1 ≠ g.nextRef := by
    intro e he
    have := (h.born e he).2
    omega
  have hold : Agrees g' (Function.update f g.nextRef (some r)) (births + 1) :=
    { prices := by rw [hg.prices]; exact h.prices
      symbols := by rw [hg.symbols, hg.prices]; exact h.symbols
      symbol := by rw [hg.symbols]; exact h.symbol
      distinct := by rw [hg.pool, hg.poolN]; exact h.distinct
      nextRef := by
        rw [hg.nextRef]
        dsimp only
        rw [href, Nat.add_comm 1]
      born := by
        rw [hg.pool, hg.poolN]
        exact fun e he => ⟨(h.born e he).1, Nat.le_succ_of_le (h.born e he).2⟩
      quantity := by rw [hg.pool, hg.poolN]; exact h.quantity
      live := by
        rw [hg.pool, hg.poolN]
        intro e he
        rw [Function.update_of_ne (hne e he)]
        exact h.live e he }
  rw [push]
  split
  · have hmember (e : ℕ × ℕ) :
        Member (Function.update g'.pool g'.poolN (g.nextRef, shares)) (g'.poolN + 1) e ↔
          e = (g.nextRef, shares) ∨ Member g'.pool g'.poolN e := member_push
    exact
      { toShaped := ⟨hold.prices, hold.symbols, hold.symbol⟩
        distinct := by
          apply hold.distinct.push
          rw [hg.pool, hg.poolN]
          exact hne
        nextRef := hold.nextRef
        born := fun e he => by
          obtain rfl | hmem := (hmember e).mp he
          · dsimp only
            omega
          · exact hold.born e hmem
        quantity := fun e he => by
          obtain rfl | hmem := (hmember e).mp he
          · exact hs
          · exact hold.quantity e hmem
        live := fun e he => by
          obtain rfl | hmem := (hmember e).mp he
          · rw [Function.update_self, Option.map_some, hr]
          · exact hold.live e hmem }
  · exact hold

end Pool

section Reference

variable {g : TapeGen} {f : RegisterFile} {births : ℕ} {out : List UInt8}

/-- A draw from a pool that is not cold: a live order and a quantity that it can give. -/
theorem reference_yields {S : List UInt8 → TapeGen → Prop} (h : Agrees g f births)
    (hpool : 0 < g.poolN)
    (hdraw : ∀ idx r q g', Agrees g' f births → g'.prices.length = g.prices.length →
      idx < g'.poolN → f (g'.pool idx).1 = some r →
      r.rem = (g'.pool idx).2 → 1 ≤ q → q ≤ r.rem → q < 2 ^ 32 →
      Yields (applyDraw idx r.rem q out) g' fun out' =>
        S (writeAt out' 11 (toBeBytes 8 (g'.pool idx).1))) :
    Yields (reference out) g S := by
  apply Yields.get_bind
  apply (below_yields g hpool).bind
  rintro idx g₁ ⟨hidx, h₁⟩
  apply Yields.get_bind
  have hone := h.beside h₁
  rw [← h₁.poolN] at hidx
  have hmember : SwapPool.Member g₁.pool g₁.poolN (g₁.pool idx) := SwapPool.member_at hidx
  obtain ⟨r, hr, hrem⟩ := Option.map_eq_some_iff.mp (hone.live _ hmember)
  have hquantity := hone.quantity _ hmember
  have hcell : g₁.pool idx = ((g₁.pool idx).1, r.rem) := by rw [hrem]
  rw [hcell]
  dsimp only
  rw [hrem, Nat.max_eq_left hquantity.1]
  apply (below_yields g₁ hquantity.1).bind
  rintro d g₂ ⟨hd, h₂⟩
  have hq : (1 + d % 2 ^ 32) % 2 ^ 32 = 1 + d := by
    rw [Nat.mod_eq_of_lt, Nat.mod_eq_of_lt]
    · omega
    · rw [Nat.mod_eq_of_lt] <;> omega
  rw [hq]
  rw [← h₂.pool] at hr hrem hd hquantity ⊢
  have hstep := hdraw idx r (1 + d) g₂ (hone.beside h₂) (h₂.prices.trans h₁.prices)
    (by rwa [h₂.poolN]) hr hrem (by omega)
    (by omega) (by omega)
  rw [hrem] at hstep
  apply hstep.bind
  intro out' g' hS
  exact .pure hS

theorem consume_prices (idx remaining q : ℕ) (g : TapeGen) :
    (consume idx remaining q g).prices.length = g.prices.length := by
  rw [consume]
  split <;> rfl

/-- E, C and X take a part of a live order. -/
theorem reference_taken (h : Agrees g f births) (hpool : 0 < g.poolN)
    (hty : out.getD 0 0 = 'E'.toUInt8 ∨ out.getD 0 0 = 'C'.toUInt8 ∨ out.getD 0 0 = 'X'.toUInt8) :
    Yields (reference out) g fun out' g' => ∃ oref q r, f oref = some r ∧ 1 ≤ oref ∧
      oref ≤ births ∧ 1 ≤ q ∧ q ≤ r.rem ∧ q < 2 ^ 32 ∧
      out' = writeAt (writeAt out 19 (toBeBytes 4 q)) 11 (toBeBytes 8 oref) ∧
      Agrees g' (Function.update f oref (some (r.reduce q))) births ∧
      g'.prices.length = g.prices.length := by
  apply reference_yields h hpool
  intro idx r q g' hg' hprices hidx hr hrem hq hle hlt
  rw [applyDraw, if_pos hty]
  obtain ⟨hone, hborn⟩ := hg'.born _ (SwapPool.member_at hidx)
  exact .modify_bind (.pure ⟨_, q, r, hr, hone, hborn, hq, hle, hlt, rfl,
    hg'.consume hidx hq hr hrem.symm,
    (consume_prices _ _ _ _).trans hprices⟩)

/-- D and U take a live order out whole. -/
theorem reference_dropped (h : Agrees g f births) (hpool : 0 < g.poolN)
    (hty : ¬(out.getD 0 0 = 'E'.toUInt8 ∨ out.getD 0 0 = 'C'.toUInt8 ∨
      out.getD 0 0 = 'X'.toUInt8)) :
    Yields (reference out) g fun out' g' => ∃ oref r, f oref = some r ∧ 1 ≤ oref ∧
      oref ≤ births ∧ 1 ≤ r.rem ∧ out' = writeAt out 11 (toBeBytes 8 oref) ∧
      Agrees g' (Function.update f oref none) births ∧ g'.prices.length = g.prices.length := by
  apply reference_yields h hpool
  intro idx r q g' hg' hprices hidx hr hrem hq hle hlt
  rw [applyDraw, if_neg hty]
  obtain ⟨hone, hborn⟩ := hg'.born _ (SwapPool.member_at hidx)
  exact .modify_bind (.pure ⟨_, r, hr, hone, hborn, hq.trans hle, rfl, hg'.swapRemove hidx none,
    hprices⟩)

end Reference

end HftProj.Testkit.RandomStream
