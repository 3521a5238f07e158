import HftProj.Testkit.LobState
import Mathlib.Algebra.Group.Prod
import Mathlib.Tactic.Ring

/-!
# Affine transitions and windows of events

An event translates the book aggregate. A window of events is composed into one translation, by
one loop or by eight lanes, and applied once. The translations are affine maps, which compose by
the matrix product.
-/

namespace HftProj.Testkit.LobWindows

open HftProj.Lib
open LobState (hsum512 laneSums hsum512_laneSums)

/-! ## Events -/

inductive LobKind where
  | add
  | exec
  | cancel
  deriving DecidableEq

structure LobEvent where
  kind : LobKind
  px : BitVec 32
  qty : BitVec 32
  deriving DecidableEq

/-- The aggregate (V, PV, N). -/
@[ext]
structure LobState where
  volume : BitVec 64
  pv : BitVec 64
  count : BitVec 64
  deriving DecidableEq

/-- A translation (dV, dPV, dN); the sum is the wrapping one of every coordinate. -/
abbrev Delta := BitVec 64 × BitVec 64 × BitVec 64

def eventDelta (e : LobEvent) : Delta :=
  let q := e.qty.setWidth 64
  let pqp := e.px.setWidth 64 * q
  match e.kind with
  | .add => (q, pqp, 1)
  | .exec | .cancel => (-q, -pqp, BitVec.allOnes 64)

/-- The state moved by a translation. -/
def LobState.translate (s : LobState) (d : Delta) : LobState where
  volume := s.volume + d.1
  pv := s.pv + d.2.1
  count := s.count + d.2.2

/-- `LobState::apply`. -/
def LobState.apply (s : LobState) (e : LobEvent) : LobState := s.translate (eventDelta e)

/-! ## Windows -/

/-- A coordinate of the events' translations, by place. -/
def column (coord : Delta → BitVec 64) (events : List LobEvent) (i : ℕ) : BitVec 64 :=
  coord ((events.map eventDelta).getD i 0)

/-- `batch_compose_vec`. -/
def batchComposeVec (events : List LobEvent) : Delta :=
  let blocks := events.length / 8
  let acc (coord : Delta → BitVec 64) := laneSums (column coord events) blocks 0 fun _ => 0
  (events.drop (8 * blocks)).foldl (fun d e => d + eventDelta e)
    (hsum512 (acc fun d => d.1), hsum512 (acc fun d => d.2.1), hsum512 (acc fun d => d.2.2))

/-- `batch_compose` on a machine with or without the wide registers. -/
def batchCompose (avx512f : Bool) (events : List LobEvent) : Delta :=
  if 32 ≤ events.length ∧ avx512f then batchComposeVec events
  else events.foldl (fun d e => d + eventDelta e) 0

/-- `window_states`: it refuses an empty window. -/
def windowStates (avx512f : Bool) (state0 : LobState) (events : List LobEvent) (block : ℕ) :
    Option (List LobState) :=
  if block = 0 then none
  else some (chunkScan (fun s w => s.translate (batchCompose avx512f w)) state0
    (chunksOf block events))

/-! ## Affine maps -/

/-- A homogeneous vector. -/
abbrev Vec4 := Fin 4 → BitVec 64

structure Affine4 where
  m : Fin 3 → Fin 4 → BitVec 64
  b : Vec4

namespace Affine4

/-- `Affine4::IDENTITY`. -/
def identity : Affine4 where
  m := ![![1, 0, 0, 0], ![0, 1, 0, 0], ![0, 0, 1, 0]]
  b := ![0, 0, 0, 1]

def translation (d : Vec4) : Affine4 where
  m := identity.m
  b := d

/-- The matrix with its fixed bottom row. -/
def row (f : Affine4) (k : Fin 4) (c : Fin 4) : BitVec 64 :=
  if h : k.val < 3 then f.m ⟨k, h⟩ c else ![0, 0, 0, 1] c

/-- `self` after `other`. -/
def compose (self other : Affine4) : Affine4 where
  m r c := (List.finRange 4).foldl (fun acc k => acc + self.m r k * other.row k c) 0
  b r :=
    if h : r.val < 3 then
      (List.finRange 3).foldl
        (fun acc k => acc + self.m ⟨r, h⟩ k.castSucc * other.b k.castSucc) (self.b r)
    else 1

def apply (f : Affine4) (x : Vec4) : Vec4 := fun r =>
  if h : r.val < 3 then
    (List.finRange 4).foldl (fun acc c => acc + f.m ⟨r, h⟩ c * x c) (f.b r)
  else 1

/-! ## Composition -/

section Composition

variable (f g h : Affine4) {x : Vec4}

theorem apply_row (x : Vec4) (r : Fin 3) :
    f.apply x r.castSucc =
      f.b r.castSucc + (f.m r 0 * x 0 + f.m r 1 * x 1 + f.m r 2 * x 2 + f.m r 3 * x 3) := by
  have hlist : List.finRange 4 = [0, 1, 2, 3] := by decide
  have hrow : r.castSucc.val < 3 := r.isLt
  simp only [apply, dif_pos hrow, hlist, List.foldl_cons, List.foldl_nil, add_assoc]
  rfl

@[simp]
theorem apply_last (x : Vec4) : f.apply x 3 = 1 := rfl

theorem compose_m (r : Fin 3) (c : Fin 4) :
    (f.compose g).m r c = f.m r 0 * g.m 0 c + f.m r 1 * g.m 1 c + f.m r 2 * g.m 2 c +
      f.m r 3 * ![0, 0, 0, 1] c := by
  have hlist : List.finRange 4 = [0, 1, 2, 3] := by decide
  simp only [compose, hlist, List.foldl_cons, List.foldl_nil, zero_add]
  rfl

theorem compose_b (r : Fin 3) :
    (f.compose g).b r.castSucc = f.b r.castSucc + f.m r 0 * g.b 0 + f.m r 1 * g.b 1 +
      f.m r 2 * g.b 2 := by
  have hlist : List.finRange 3 = [0, 1, 2] := by decide
  have hrow : r.castSucc.val < 3 := r.isLt
  simp only [compose, dif_pos hrow, hlist, List.foldl_cons, List.foldl_nil]
  rfl

/-- Two images agree when their first three rows do. -/
theorem apply_ext {f g : Affine4} {x y : Vec4}
    (hrow : ∀ r : Fin 3, f.apply x r.castSucc = g.apply y r.castSucc) : f.apply x = g.apply y := by
  funext r
  refine Fin.lastCases ?_ hrow r
  exact (apply_last f x).trans (apply_last g y).symm

/-- The product of the matrices is the composition of the maps. -/
theorem apply_compose (hx : x 3 = 1) : (f.compose g).apply x = f.apply (g.apply x) := by
  apply apply_ext
  intro r
  have h0 : g.apply x 0 =
      g.b 0 + (g.m 0 0 * x 0 + g.m 0 1 * x 1 + g.m 0 2 * x 2 + g.m 0 3 * x 3) := g.apply_row x 0
  have h1 : g.apply x 1 =
      g.b 1 + (g.m 1 0 * x 0 + g.m 1 1 * x 1 + g.m 1 2 * x 2 + g.m 1 3 * x 3) := g.apply_row x 1
  have h2 : g.apply x 2 =
      g.b 2 + (g.m 2 0 * x 0 + g.m 2 1 * x 1 + g.m 2 2 * x 2 + g.m 2 3 * x 3) := g.apply_row x 2
  have hzero : (![0, 0, 0, 1] : Vec4) 0 = 0 ∧ (![0, 0, 0, 1] : Vec4) 1 = 0 ∧
      (![0, 0, 0, 1] : Vec4) 2 = 0 := ⟨rfl, rfl, rfl⟩
  have hone : (![0, 0, 0, 1] : Vec4) 3 = 1 := rfl
  rw [apply_row, apply_row, compose_b, compose_m, compose_m, compose_m, compose_m, h0, h1, h2,
    apply_last, hx, hzero.1, hzero.2.1, hzero.2.2, hone]
  ring

/-- A translation adds its column. -/
theorem apply_translation (d x : Vec4) (r : Fin 3) :
    (translation d).apply x r.castSucc = d r.castSucc + x r.castSucc := by
  rw [apply_row]
  apply congrArg (d r.castSucc + ·)
  match r with
  | 0 =>
      change 1 * x 0 + 0 * x 1 + 0 * x 2 + 0 * x 3 = x 0
      ring
  | 1 =>
      change 0 * x 0 + 1 * x 1 + 0 * x 2 + 0 * x 3 = x 1
      ring
  | 2 =>
      change 0 * x 0 + 0 * x 1 + 1 * x 2 + 0 * x 3 = x 2
      ring

theorem apply_identity (hx : x 3 = 1) : identity.apply x = x := by
  have hrow (r : Fin 3) := apply_translation identity.b x r
  funext r
  match r with
  | 0 => exact (hrow 0).trans (zero_add _)
  | 1 => exact (hrow 1).trans (zero_add _)
  | 2 => exact (hrow 2).trans (zero_add _)
  | 3 => exact hx.symm

theorem compose_assoc (hx : x 3 = 1) :
    ((f.compose g).compose h).apply x = (f.compose (g.compose h)).apply x := by
  rw [apply_compose _ _ hx, apply_compose _ _ (apply_last h x), apply_compose _ _ hx,
    apply_compose _ _ hx]

theorem compose_identity (hx : x 3 = 1) :
    (f.compose identity).apply x = f.apply x ∧ (identity.compose f).apply x = f.apply x := by
  constructor
  · rw [apply_compose _ _ hx, apply_identity hx]
  · rw [apply_compose _ _ hx, apply_identity (apply_last f x)]

end Composition

end Affine4

/-! ## Translations -/

/-- An event's translation as an affine map. -/
def Affine4.ofDelta (d : Delta) (dw : BitVec 64) : Affine4 :=
  .translation ![d.1, d.2.1, d.2.2, dw]

section Windows

variable (avx512f : Bool) (events : List LobEvent)

theorem foldl_delta (d : Delta) :
    events.foldl (fun d e => d + eventDelta e) d = d + (events.map eventDelta).sum := by
  induction events generalizing d with
  | nil => exact (add_zero d).symm
  | cons e events ih => rw [List.foldl_cons, ih, List.map_cons, List.sum_cons, add_assoc]

/-- The lanes of a coordinate, summed. -/
theorem lanes_coord (coord : Delta →+ BitVec 64) {blocks : ℕ} (h : 8 * blocks ≤ events.length) :
    hsum512 (laneSums (column coord events) blocks 0 fun _ => 0) =
      coord ((events.take (8 * blocks)).map eventDelta).sum := by
  have hcolumn : column coord events = coord ∘ fun i => (events.map eventDelta).getD i 0 := rfl
  rw [hsum512_laneSums, hcolumn, ← List.map_map,
    map_getD_range (events.map eventDelta) 0 (by rw [List.length_map]; exact h), ← map_list_sum,
    List.map_take]

/-- Both schedules sum the translations. -/
theorem batchCompose_sum : batchCompose avx512f events = (events.map eventDelta).sum := by
  rw [batchCompose]
  split
  · have hblocks : 8 * (events.length / 8) ≤ events.length := Nat.mul_div_le _ _
    have hv := lanes_coord events (AddMonoidHom.fst _ _) hblocks
    have hpv := lanes_coord events ((AddMonoidHom.fst _ _).comp (AddMonoidHom.snd _ _)) hblocks
    have hn := lanes_coord events ((AddMonoidHom.snd _ _).comp (AddMonoidHom.snd _ _)) hblocks
    have hlanes : batchComposeVec events =
        (events.drop (8 * (events.length / 8))).foldl (fun d e => d + eventDelta e)
          ((events.take (8 * (events.length / 8))).map eventDelta).sum :=
      congrArg (fun d => (events.drop (8 * (events.length / 8))).foldl (fun d e => d + eventDelta e) d)
        (Prod.ext hv (Prod.ext hpv hn))
    rw [hlanes, foldl_delta, ← List.sum_append, ← List.map_append, List.take_append_drop]
  · rw [foldl_delta, zero_add]

/-- One translation by the sum is the events one by one. -/
theorem translate_sum (s : LobState) :
    s.translate (events.map eventDelta).sum = events.foldl LobState.apply s := by
  induction events generalizing s with
  | nil =>
      ext1
      · exact add_zero s.volume
      · exact add_zero s.pv
      · exact add_zero s.count
  | cons e events ih =>
      rw [List.foldl_cons, ← ih, List.map_cons, List.sum_cons]
      ext1
      · exact (add_assoc s.volume _ _).symm
      · exact (add_assoc s.pv _ _).symm
      · exact (add_assoc s.count _ _).symm

theorem ofDelta_apply (d : Delta) (dw : BitVec 64) (x : Vec4) :
    (Affine4.ofDelta d dw).apply x = ![x 0 + d.1, x 1 + d.2.1, x 2 + d.2.2, 1] := by
  have hrow (r : Fin 3) := Affine4.apply_translation ![d.1, d.2.1, d.2.2, dw] x r
  funext r
  match r with
  | 0 => exact (hrow 0).trans (add_comm _ _)
  | 1 => exact (hrow 1).trans (add_comm _ _)
  | 2 => exact (hrow 2).trans (add_comm _ _)
  | 3 => rfl

/-- The map of the sum is the events' maps one by one. -/
theorem ofDelta_sum (dw : BitVec 64) {x : Vec4} (hx : x 3 = 1) :
    (Affine4.ofDelta (events.map eventDelta).sum dw).apply x =
      events.foldl (fun x e => (Affine4.ofDelta (eventDelta e) dw).apply x) x := by
  induction events generalizing x with
  | nil =>
      rw [ofDelta_apply]
      funext r
      match r with
      | 0 => exact add_zero (x 0)
      | 1 => exact add_zero (x 1)
      | 2 => exact add_zero (x 2)
      | 3 => exact hx.symm
  | cons e events ih =>
      rw [List.foldl_cons, ← ih (Affine4.apply_last _ x), ofDelta_apply, ofDelta_apply,
        ofDelta_apply, List.map_cons, List.sum_cons]
      funext r
      match r with
      | 0 => exact (add_assoc (x 0) _ _).symm
      | 1 => exact (add_assoc (x 1) _ _).symm
      | 2 => exact (add_assoc (x 2) _ _).symm
      | 3 => rfl

end Windows

/-- Affine maps compose, with `identity` as the identity, and a window of events on either
schedule is its events' translations one by one, at every window boundary. -/
theorem affine_windows (avx512f : Bool) (events : List LobEvent) (block : ℕ) (hb : 0 < block)
    (s : LobState) (f g h : Affine4) (x : Vec4) (hx : x 3 = 1) (dw : BitVec 64) :
    (f.compose g).apply x = f.apply (g.apply x) ∧
      ((f.compose g).compose h).apply x = (f.compose (g.compose h)).apply x ∧
      Affine4.identity.apply x = x ∧
      (f.compose .identity).apply x = f.apply x ∧ (Affine4.identity.compose f).apply x = f.apply x ∧
      s.translate (batchCompose avx512f events) = events.foldl LobState.apply s ∧
      (Affine4.ofDelta (batchCompose avx512f events) dw).apply x =
        events.foldl (fun x e => (Affine4.ofDelta (eventDelta e) dw).apply x) x ∧
      windowStates avx512f s events block =
        some ((List.range ((events.length + block - 1) / block)).map fun k =>
          (events.take ((k + 1) * block)).foldl LobState.apply s) := by
  refine ⟨f.apply_compose g hx, f.compose_assoc g h hx, Affine4.apply_identity hx,
    (f.compose_identity hx).1, (f.compose_identity hx).2, ?_, ?_, ?_⟩
  · rw [batchCompose_sum, translate_sum]
  · rw [batchCompose_sum, ofDelta_sum events dw hx]
  · rw [windowStates, if_neg (Nat.ne_of_gt hb), chunkScan_chunks hb]
    intro s us _
    rw [batchCompose_sum, translate_sum]

theorem affine_windows_two :
    windowStates true ⟨0, 0, 0⟩ [⟨.add, 3, 5⟩, ⟨.cancel, 3, 2⟩] 1 =
      some [⟨5, 15, 1⟩, ⟨3, 9, 0⟩] := by
  obtain ⟨-, -, -, -, -, -, -, hstates⟩ := affine_windows true [⟨.add, 3, 5⟩, ⟨.cancel, 3, 2⟩] 1
    (by decide) ⟨0, 0, 0⟩ .identity .identity .identity ![0, 0, 0, 1] rfl 0
  exact hstates

end HftProj.Testkit.LobWindows
