import HftProj.Lib.Probing
import HftProj.Lib.Word

/-!
# The order cache

The resolve stage's table of live orders: open addressing with linear probing over parallel
arrays, id 0 marking an empty slot, deletion by backward shift and growth at a load of 0.7.
`Book` is what the table stands for, a finite map from references to orders.
-/

namespace HftProj.Testkit

open HftProj.Lib

/-- How a call can fail to return: a `Vec` of more than `isize::MAX` bytes is refused, a
probe loop that looks at more slots than there are does not end, and an index lies outside. -/
inductive Fault where
  | capacityOverflow
  | endless
  | outOfBounds
  deriving DecidableEq

structure OrderCache where
  cap : ℕ
  ids : ℕ → ℕ
  rem : ℕ → ℕ
  px : ℕ → ℕ
  loc : ℕ → ℕ
  side : ℕ → ℕ
  mask : ℕ
  shift : ℕ
  len : ℕ
  probes : ℕ
  rehashes : ℕ
  maxChain : ℕ
  touch : ℕ → ℕ
  maxLifecycle : ℕ

@[grind =]
def trailingZeros (n : ℕ) : ℕ := if n ≠ 0 ∧ n % 2 = 0 then trailingZeros (n / 2) + 1 else 0
termination_by n

namespace OrderCache

/-- Fibonacci hashing: the high bits of the product. -/
def home (c : OrderCache) (id : ℕ) : ℕ :=
  ((id * 0x9E3779B97F4A7C15 % 2 ^ 64) >>> c.shift) &&& c.mask

def new (capLog2 : ℕ) : OrderCache where
  cap := 2 ^ capLog2
  ids _ := 0
  rem _ := 0
  px _ := 0
  loc _ := 0
  side _ := 0
  mask := 2 ^ capLog2 - 1
  shift := 64 - capLog2
  len := 0
  probes := 0
  rehashes := 0
  maxChain := 0
  touch _ := 0
  maxLifecycle := 0

def loadFactorOk (c : OrderCache) : Prop :=
  wrappingAdd c.len 1 * 10 % 2 ^ 64 ≤ c.cap * 7 % 2 ^ 64

instance : DecidablePred loadFactorOk := fun _ => inferInstanceAs (Decidable (_ ≤ _))

/-- The probe loop of every operation: from a slot to an empty one or to the id. Also the
length of the chain. -/
@[grind =]
def seek (c : OrderCache) (id : ℕ) : ℕ → ℕ → ℕ → Except Fault (ℕ × ℕ)
  | 0, _, _ => .error .endless
  | fuel + 1, i, chain =>
      if c.ids i = 0 ∨ c.ids i = id then .ok (i, chain)
      else seek c id fuel ((i + 1) &&& c.mask) (chain + 1)

def insertRaw (c : OrderCache) (id rem px loc side : ℕ) : Except Fault OrderCache :=
  match c.seek id c.cap (c.home id) 0 with
  | .error f => .error f
  | .ok (i, chain) =>
      if c.ids i = 0 then
        .ok { c with
          ids := Function.update c.ids i id
          rem := Function.update c.rem i rem
          px := Function.update c.px i px
          loc := Function.update c.loc i loc
          side := Function.update c.side i side
          touch := Function.update c.touch i 1
          len := wrappingAdd c.len 1
          maxChain := max c.maxChain chain }
      else
        .ok { c with
          rem := Function.update c.rem i rem
          px := Function.update c.px i px
          loc := Function.update c.loc i loc
          side := Function.update c.side i side }

/-- The empty table of twice the size. The hash's shift lags one behind the new size. -/
def doubled (c : OrderCache) : OrderCache :=
  { c with
    cap := c.cap * 2
    ids := fun _ => 0
    rem := fun _ => 0
    px := fun _ => 0
    loc := fun _ => 0
    side := fun _ => 0
    mask := c.cap * 2 - 1
    shift := 64 - trailingZeros c.cap
    len := 0
    rehashes := c.rehashes + 1
    touch := fun _ => 0 }

/-- Rehash the slots from `i` on into a table. -/
@[grind =]
def refill (old : OrderCache) : ℕ → ℕ → OrderCache → Except Fault OrderCache
  | 0, _, c => .ok c
  | n + 1, i, c =>
      if old.ids i ≠ 0 then
        match c.insertRaw (old.ids i) (old.rem i) (old.px i) (old.loc i) (old.side i) with
        | .error f => .error f
        | .ok c => refill old n (i + 1) c
      else refill old n (i + 1) c

def grow (c : OrderCache) : Except Fault OrderCache :=
  if c.cap * 2 ≥ 2 ^ 60 then .error .capacityOverflow
  else refill c c.cap 0 c.doubled

protected def insert (c : OrderCache) (id rem px loc side : ℕ) : Except Fault OrderCache :=
  if c.loadFactorOk then c.insertRaw id rem px loc side
  else
    match c.grow with
    | .error f => .error f
    | .ok c => c.insertRaw id rem px loc side

/-- Locate, side, remaining quantity and price of the entry. -/
def probe (c : OrderCache) (id : ℕ) : Except Fault (Option (ℕ × ℕ × ℕ × ℕ) × OrderCache) :=
  match c.seek id c.cap (c.home id) 0 with
  | .error f => .error f
  | .ok (i, chain) =>
      let seen := { c with probes := wrappingAdd c.probes (chain + 1) }
      if c.ids i = id then
        .ok (some (c.loc i, c.side i, c.rem i, c.px i),
          { seen with
            maxChain := max c.maxChain chain
            touch := Function.update c.touch i (min (c.touch i + 1) (2 ^ 32 - 1)) })
      else .ok (none, seen)

def setRem (c : OrderCache) (id rem : ℕ) : Except Fault OrderCache :=
  match c.seek id c.cap (c.home id) 0 with
  | .error f => .error f
  | .ok (i, _) =>
      if c.ids i = id then .ok { c with rem := Function.update c.rem i rem } else .ok c

/-- The backward shift: the hole is at `i`, slots up to `j` have been looked at. -/
@[grind =]
def eraseLoop : ℕ → ℕ → ℕ → OrderCache → Except Fault OrderCache
  | 0, _, _, _ => .error .endless
  | fuel + 1, i, j, c =>
      let j := (j + 1) &&& c.mask
      if c.ids j = 0 then .ok c
      else
        let home := c.home (c.ids j)
        let dist := wrappingSub j home &&& c.mask
        let holeDist := wrappingSub j i &&& c.mask
        if holeDist ≤ dist then
          eraseLoop fuel j j
            { c with
              ids := Function.update (Function.update c.ids i (c.ids j)) j 0
              rem := Function.update c.rem i (c.rem j)
              px := Function.update c.px i (c.px j)
              loc := Function.update c.loc i (c.loc j)
              side := Function.update c.side i (c.side j)
              touch := Function.update c.touch i (c.touch j) }
        else eraseLoop fuel i j c

def erase (c : OrderCache) (id : ℕ) : Except Fault OrderCache :=
  match c.seek id c.cap (c.home id) 0 with
  | .error f => .error f
  | .ok (i, _) =>
      if c.ids i = id then
        eraseLoop c.cap i i
          { c with
            maxLifecycle := max c.maxLifecycle (c.touch i)
            ids := Function.update c.ids i 0
            len := wrappingSub c.len 1 }
      else .ok c

end OrderCache

/-! ## What the table stands for -/

structure Order where
  side : ℕ
  loc : ℕ
  px : ℕ
  rem : ℕ
  deriving DecidableEq

/-- The live orders by reference. -/
abbrev Book := ℕ → Option Order

namespace OrderCache

/-- The entry of a slot; id 0 marks an empty one. -/
def entryAt (c : OrderCache) (i : ℕ) : Option (ℕ × Order) :=
  if c.ids i = 0 then none else some (c.ids i, ⟨c.side i, c.loc i, c.px i, c.rem i⟩)

/-- The size is a power of two that can be allocated, and the mask belongs to it. -/
structure Laid (c : OrderCache) : Prop where
  power : ∃ k, 3 ≤ k ∧ k < 60 ∧ c.cap = 2 ^ k
  mask : c.mask = c.cap - 1

/-- The table is laid out soundly and holds the orders of the book with a non-zero
reference. -/
structure Stands (c : OrderCache) (b : Book) : Prop extends Laid c where
  probed : Probing.Probed c.cap Prod.fst c.home c.entryAt
  holds : ∀ id o, Probing.Holds c.cap c.entryAt (id, o) ↔ id ≠ 0 ∧ b id = some o

/-- The live references that the table can tell from an empty slot. -/
def liveIds (b : Book) : Set ℕ := {id | id ≠ 0 ∧ b id ≠ none}

/-- The length against the live references: `z` more than there are, with the load bound. -/
structure Counted (c : OrderCache) (b : Book) (z : ℤ) : Prop where
  finite : (liveIds b).Finite
  low : -1 ≤ z
  load : ((liveIds b).ncard + z) * 10 ≤ c.cap * 7
  len : (c.len : ℤ) = ((liveIds b).ncard + z) % 2 ^ 64

/-! ## Calls -/

inductive Call where
  | insert (id : ℕ) (o : Order)
  | probe (id : ℕ)
  | setRem (id rem : ℕ)
  | erase (id : ℕ)

namespace Call

@[grind =]
def id : Call → ℕ
  | .insert id _ => id
  | .probe id => id
  | .setRem id _ => id
  | .erase id => id

/-- What a call does to the finite map. -/
def apply (b : Book) : Call → Book
  | .insert id o => Function.update b id (some o)
  | .probe _ => b
  | .setRem id rem => Function.update b id ((b id).map fun o => { o with rem := rem })
  | .erase id => Function.update b id none

/-- What the finite map answers to a probe: locate, side, remaining quantity and price. -/
def answer (b : Book) : Call → Option (Option (ℕ × ℕ × ℕ × ℕ))
  | .probe id => some ((b id).map fun o => (o.loc, o.side, o.rem, o.px))
  | _ => none

end Call

/-- The answers of the finite map to a run of calls. -/
@[grind =]
def answers (b : Book) : List Call → List (Option (Option (ℕ × ℕ × ℕ × ℕ)))
  | [] => []
  | call :: calls => call.answer b :: answers (call.apply b) calls

def call (c : OrderCache) :
    Call → Except Fault (Option (Option (ℕ × ℕ × ℕ × ℕ)) × OrderCache)
  | .insert id o => (c.insert id o.rem o.px o.loc o.side).map fun c => (none, c)
  | .probe id => (c.probe id).map fun (r, c) => (some r, c)
  | .setRem id rem => (c.setRem id rem).map fun c => (none, c)
  | .erase id => (c.erase id).map fun c => (none, c)

@[grind =]
def run : List Call → OrderCache →
    Except Fault (List (Option (Option (ℕ × ℕ × ℕ × ℕ))) × OrderCache)
  | [], c => .ok ([], c)
  | next :: calls, c =>
      match c.call next with
      | .error f => .error f
      | .ok (r, c) =>
          match run calls c with
          | .error f => .error f
          | .ok (rs, c) => .ok (r :: rs, c)

/-! ## The layout -/

variable {c c' : OrderCache} {b b' : Book} {id i j s : ℕ} {o : Order} {z : ℤ}

theorem entryAt_eq_none : c.entryAt i = none ↔ c.ids i = 0 := by
  rw [entryAt]
  split <;> simp [*]

theorem entryAt_eq_some : c.entryAt i = some (id, o) ↔
    c.ids i ≠ 0 ∧ c.ids i = id ∧ ⟨c.side i, c.loc i, c.px i, c.rem i⟩ = o := by
  rw [entryAt]
  split
  · next h => simp [h]
  · next h => simp [h]

theorem home_eq (hmask : c'.mask = c.mask) (hshift : c'.shift = c.shift) : c'.home = c.home := by
  funext id
  rw [home, home, hmask, hshift]

namespace Laid

variable (h : Laid c)
include h

theorem lt_pow : c.cap < 2 ^ 60 := by
  obtain ⟨k, -, hk, hcap⟩ := h.power
  rw [hcap]
  exact Nat.pow_lt_pow_right (by decide) hk

theorem eight_le : 8 ≤ c.cap := by
  obtain ⟨k, hk, -, hcap⟩ := h.power
  rw [hcap]
  show 2 ^ 3 ≤ 2 ^ k
  exact Nat.pow_le_pow_right (by decide) hk

theorem and_mask (x : ℕ) : x &&& c.mask = x % c.cap := by
  obtain ⟨k, -, -, hcap⟩ := h.power
  rw [h.mask, hcap, Nat.and_two_pow_sub_one_eq_mod]

theorem next_eq (hi : i < c.cap) : (i + 1) &&& c.mask = Probing.next c.cap i := by
  rw [h.and_mask, Probing.next]
  split
  · next hlast => rw [hlast, Nat.mod_self]
  · exact Nat.mod_eq_of_lt (by omega)

/-- The masked wrapping difference is the way around the ring. -/
theorem dist_eq (hi : i < c.cap) (hj : j < c.cap) :
    wrappingSub j i &&& c.mask = Probing.dist c.cap i j := by
  have hlt := h.lt_pow
  obtain ⟨k, -, hk, hcap⟩ := h.power
  rw [h.and_mask, Probing.dist]
  split
  · next hle => rw [wrappingSub_of_le hle (by omega), Nat.mod_eq_of_lt (by omega)]
  · next hgt =>
      have hdvd : 2 ^ 64 = c.cap * 2 ^ (64 - k) := by
        rw [hcap, ← pow_add]
        congr 1
        omega
      have hone : 1 ≤ 2 ^ (64 - k) := Nat.one_le_two_pow
      have hsplit : j + (2 ^ 64 - i) = j + c.cap - i + c.cap * (2 ^ (64 - k) - 1) := by
        rw [hdvd, Nat.mul_sub_one]
        have hle := Nat.le_mul_of_pos_right c.cap hone
        omega
      rw [wrappingSub, Nat.mod_mod_of_dvd _ ⟨_, hdvd⟩, hsplit, Nat.add_mul_mod_self_left,
        Nat.mod_eq_of_lt (by omega)]

theorem home_lt (id : ℕ) : c.home id < c.cap := by
  rw [home, h.and_mask]
  exact Nat.mod_lt _ (Nat.lt_of_lt_of_le (by decide) h.eight_le)

theorem of_frame (hcap : c'.cap = c.cap) (hmask : c'.mask = c.mask) : Laid c' :=
  ⟨hcap ▸ h.power, by rw [hmask, hcap, h.mask]⟩

end Laid

namespace Stands

variable (h : Stands c b)
include h

/-- The same layout with the entries of another table. -/
theorem relayed (hcap : c'.cap = c.cap) (hmask : c'.mask = c.mask) (hshift : c'.shift = c.shift)
    (hprobed : Probing.Probed c.cap Prod.fst c.home c'.entryAt)
    (hholds : ∀ id o, Probing.Holds c.cap c'.entryAt (id, o) ↔ id ≠ 0 ∧ b' id = some o) :
    Stands c' b' := by
  refine ⟨h.of_frame hcap hmask, ?_, ?_⟩
  · rwa [hcap, home_eq hmask hshift]
  · rwa [hcap]

theorem of_entryAt (hcap : c'.cap = c.cap) (hmask : c'.mask = c.mask)
    (hshift : c'.shift = c.shift) (hentry : c'.entryAt = c.entryAt)
    (hb : ∀ id ≠ 0, b' id = b id) : Stands c' b' := by
  apply h.relayed hcap hmask hshift
  · rw [hentry]
    exact h.probed
  · intro id o
    rw [hentry, h.holds]
    exact and_congr_right fun hid => by rw [hb id hid]

theorem keys_eq :
    {id | ∃ e, Probing.Holds c.cap c.entryAt e ∧ e.1 = id} = liveIds b := by
  ext id
  constructor
  · rintro ⟨⟨_, o⟩, he, rfl⟩
    obtain ⟨hid, ho⟩ := (h.holds _ o).mp he
    exact ⟨hid, fun hnone => by rw [hnone] at ho; cases ho⟩
  · rintro ⟨hid, hlive⟩
    obtain ⟨o, ho⟩ := Option.ne_none_iff_exists'.mp hlive
    exact ⟨(id, o), (h.holds id o).mpr ⟨hid, ho⟩, rfl⟩

end Stands

/-! ## The probe loop -/

/-- Where the probe loop for an id stops: at the first slot that is empty or the id's. -/
structure Found (c : OrderCache) (id s : ℕ) : Prop where
  lt : s < c.cap
  stop : c.ids s = 0 ∨ c.ids s = id
  before : ∀ p < c.cap, Probing.dist c.cap (c.home id) p < Probing.dist c.cap (c.home id) s →
    ¬(c.ids p = 0 ∨ c.ids p = id)

theorem seek_scan (h : Stands c b) {fuel chain : ℕ} (hi : i < c.cap)
    (hscan : Probing.scan c.cap (fun p => c.ids p = 0 ∨ c.ids p = id) fuel i = some s) :
    ∃ chain', c.seek id fuel i chain = .ok (s, chain') := by
  induction fuel generalizing i chain with
  | zero => cases hscan
  | succ fuel ih =>
      rw [Probing.scan] at hscan
      rw [seek]
      split at hscan
      · next hstop =>
          cases hscan
          rw [if_pos hstop]
          exact ⟨chain, rfl⟩
      · next hgo =>
          rw [if_neg hgo, h.next_eq hi]
          exact ih (Probing.next_lt hi) hscan

/-- With an empty slot left, the probe loop ends. -/
theorem seek_found (h : Stands c b) (hroom : ∃ z < c.cap, c.ids z = 0) (id : ℕ) :
    ∃ s chain, c.seek id c.cap (c.home id) 0 = .ok (s, chain) ∧ Found c id s := by
  obtain ⟨z, hz, hempty⟩ := hroom
  have hhome := h.probed.home_lt id
  obtain ⟨s, hs, hscan, hstop, hbefore⟩ :=
    @Probing.scan_spec c.cap (fun p => c.ids p = 0 ∨ c.ids p = id) _ _ _ _ hhome hz (Or.inl hempty)
      (Probing.dist_lt hhome hz)
  obtain ⟨chain, hseek⟩ := @seek_scan _ _ _ _ _ h _ 0 hhome hscan
  exact ⟨s, chain, hseek, hs, hstop, hbefore⟩

namespace Found

variable (hf : Found c id s)
include hf

theorem not_stops : ∀ p < c.cap,
    Probing.dist c.cap (c.home id) p < Probing.dist c.cap (c.home id) s →
    ¬Probing.Stops Prod.fst c.entryAt id p := by
  intro p hp hlt hstops
  have hgo := hf.before p hp hlt
  apply hgo
  by_cases hids : c.ids p = 0
  · exact Or.inl hids
  · right
    exact hstops _ (entryAt_eq_some.mpr ⟨hids, rfl, rfl⟩)

/-- At an empty slot the id has no order, at its own slot that order. -/
theorem absent (h : Stands c b) (hid : id ≠ 0) (hempty : c.ids s = 0) : b id = none := by
  by_contra hlive
  obtain ⟨o, ho⟩ := Option.ne_none_iff_exists'.mp hlive
  have hheld := (h.holds id o).mpr ⟨hid, ho⟩
  exact h.probed.absent hf.lt hf.not_stops (entryAt_eq_none.mpr hempty) hheld rfl

theorem present (h : Stands c b) (hfull : c.ids s ≠ 0) :
    b id = some ⟨c.side s, c.loc s, c.px s, c.rem s⟩ := by
  have hown := hf.stop.resolve_left hfull
  have hentry : c.entryAt s = some (id, ⟨c.side s, c.loc s, c.px s, c.rem s⟩) :=
    entryAt_eq_some.mpr ⟨hfull, hown, rfl⟩
  exact ((h.holds id _).mp ⟨s, hf.lt, hentry⟩).2

end Found

/-! ## The operations -/

/-- Writing an order into the slot that the probe loop found. -/
theorem entryAt_write (hid : id ≠ 0) (hids : c'.ids = Function.update c.ids s id)
    (hside : c'.side = Function.update c.side s o.side)
    (hloc : c'.loc = Function.update c.loc s o.loc) (hpx : c'.px = Function.update c.px s o.px)
    (hrem : c'.rem = Function.update c.rem s o.rem) :
    c'.entryAt = Function.update c.entryAt s (some (id, o)) := by
  funext t
  rw [entryAt, hids, hside, hloc, hpx, hrem]
  by_cases hts : t = s
  · subst hts
    simp only [Function.update_self, if_neg hid]
  · simp only [Function.update_of_ne hts, entryAt]

theorem Stands.write_new (h : Stands c b) (hf : Found c id s) (hid : id ≠ 0)
    (hempty : c.ids s = 0) (hcap : c'.cap = c.cap) (hmask : c'.mask = c.mask)
    (hshift : c'.shift = c.shift)
    (hentry : c'.entryAt = Function.update c.entryAt s (some (id, o))) :
    Stands c' (Function.update b id (some o)) := by
  have hnone := entryAt_eq_none.mpr hempty
  apply h.relayed hcap hmask hshift
  · rw [hentry]
    exact h.probed.insert hf.lt hnone hf.not_stops
  · intro id' o'
    rw [hentry, Probing.Probed.holds_insert hf.lt hnone, h.holds, Function.update_apply, Prod.mk.injEq]
    split
    · next heq =>
        subst heq
        rw [hf.absent h hid hempty]
        simp [hid, eq_comm]
    · next hne => simp [hne]

theorem Stands.write_over (h : Stands c b) (hf : Found c id s) (hfull : c.ids s ≠ 0)
    (hcap : c'.cap = c.cap) (hmask : c'.mask = c.mask) (hshift : c'.shift = c.shift)
    (hentry : c'.entryAt = Function.update c.entryAt s (some (id, o))) :
    Stands c' (Function.update b id (some o)) := by
  have hown := hf.stop.resolve_left hfull
  have hold : c.entryAt s = some (id, _) := entryAt_eq_some.mpr ⟨hfull, hown, rfl⟩
  apply h.relayed hcap hmask hshift
  · rw [hentry]
    exact h.probed.overwrite hold rfl
  · intro id' o'
    rw [hentry, h.probed.holds_overwrite hf.lt hold, h.holds, Function.update_apply,
      Prod.mk.injEq]
    split
    · next heq =>
        subst heq
        simp [← hown, hfull, eq_comm]
    · next hne => simp [hne]

theorem insertRaw_spec (h : Stands c b) (hroom : ∃ z < c.cap, c.ids z = 0) (id : ℕ) (o : Order) :
    ∃ c', c.insertRaw id o.rem o.px o.loc o.side = .ok c' ∧
      Stands c' (Function.update b id (some o)) ∧ c'.cap = c.cap ∧
      c'.len = if id ≠ 0 ∧ b id ≠ none then c.len else wrappingAdd c.len 1 := by
  obtain ⟨s, chain, hseek, hf⟩ := seek_found h hroom id
  simp only [insertRaw, hseek]
  by_cases hempty : c.ids s = 0
  · rw [if_pos hempty]
    refine ⟨_, rfl, ?_, rfl, ?_⟩
    · by_cases hid : id = 0
      · subst hid
        refine h.of_entryAt rfl rfl rfl ?_ fun id hid => Function.update_of_ne hid ..
        funext t
        simp only [entryAt, Function.update_apply]
        by_cases hts : t = s
        · simp [hts, hempty]
        · simp [hts]
      · exact h.write_new hf hid hempty rfl rfl rfl (entryAt_write hid rfl rfl rfl rfl rfl)
    · rw [if_neg]
      rintro ⟨hid, hlive⟩
      exact hlive (hf.absent h hid hempty)
  · rw [if_neg hempty]
    have hown := hf.stop.resolve_left hempty
    have hid : id ≠ 0 := hown ▸ hempty
    refine ⟨_, rfl, ?_, rfl, ?_⟩
    · refine h.write_over hf hempty rfl rfl rfl (entryAt_write hid ?_ rfl rfl rfl rfl)
      rw [← hown, Function.update_eq_self]
    · have hlive : b id ≠ none := by
        rw [hf.present h hempty]
        exact Option.some_ne_none _
      rw [if_pos ⟨hid, hlive⟩]

theorem setRem_spec (h : Stands c b) (hroom : ∃ z < c.cap, c.ids z = 0) (id rem : ℕ) :
    ∃ c', c.setRem id rem = .ok c' ∧
      Stands c' (Function.update b id ((b id).map fun o => { o with rem := rem })) ∧
      c'.cap = c.cap ∧ c'.len = c.len := by
  obtain ⟨s, chain, hseek, hf⟩ := seek_found h hroom id
  simp only [setRem, hseek]
  by_cases hown : c.ids s = id
  · rw [if_pos hown]
    refine ⟨_, rfl, ?_, rfl, rfl⟩
    by_cases hid : id = 0
    · subst hid
      refine h.of_entryAt rfl rfl rfl ?_ fun id hid => Function.update_of_ne hid ..
      funext t
      simp only [entryAt, Function.update_apply]
      by_cases hts : t = s
      · simp [hts, hown]
      · simp [hts]
    · have hfull : c.ids s ≠ 0 := hown ▸ hid
      rw [hf.present h hfull]
      refine h.write_over hf hfull rfl rfl rfl (entryAt_write hid ?_ ?_ ?_ ?_ rfl)
      · rw [← hown, Function.update_eq_self]
      · exact (Function.update_eq_self ..).symm
      · exact (Function.update_eq_self ..).symm
      · exact (Function.update_eq_self ..).symm
  · rw [if_neg hown]
    refine ⟨c, rfl, ?_, rfl, rfl⟩
    refine h.of_entryAt rfl rfl rfl rfl fun id' hid' => ?_
    rw [Function.update_apply]
    split
    · next heq =>
        subst heq
        rw [hf.absent h hid' (hf.stop.resolve_right hown), Option.map_none]
    · rfl

/-- A lookup of a non-zero id answers from the book; one of id 0 answers with whatever the
empty slot holds. -/
theorem probe_spec (h : Stands c b) (hroom : ∃ z < c.cap, c.ids z = 0) (id : ℕ) :
    ∃ r c', c.probe id = .ok (r, c') ∧ Stands c' b ∧ c'.cap = c.cap ∧ c'.len = c.len ∧
      (id ≠ 0 → r = (b id).map fun o => (o.loc, o.side, o.rem, o.px)) ∧ (id = 0 → r ≠ none) := by
  obtain ⟨s, chain, hseek, hf⟩ := seek_found h hroom id
  simp only [probe, hseek]
  by_cases hown : c.ids s = id
  · rw [if_pos hown]
    refine ⟨_, _, rfl, h.of_entryAt rfl rfl rfl rfl fun _ _ => rfl, rfl, rfl, fun hid => ?_,
      fun _ => Option.some_ne_none _⟩
    rw [hf.present h (hown ▸ hid), Option.map_some]
  · rw [if_neg hown]
    have hempty := hf.stop.resolve_right hown
    refine ⟨_, _, rfl, h.of_entryAt rfl rfl rfl rfl fun _ _ => rfl, rfl, rfl, fun hid => ?_,
      fun hid => absurd (hempty.trans hid.symm) hown⟩
    rw [hf.absent h hid hempty, Option.map_none]

/-! ## Deletion -/

theorem entryAt_move (hj : c.ids j ≠ 0)
    (hids : c'.ids = Function.update (Function.update c.ids i (c.ids j)) j 0)
    (hside : c'.side = Function.update c.side i (c.side j))
    (hloc : c'.loc = Function.update c.loc i (c.loc j))
    (hpx : c'.px = Function.update c.px i (c.px j))
    (hrem : c'.rem = Function.update c.rem i (c.rem j)) :
    c'.entryAt = Function.update (Function.update c.entryAt i (c.entryAt j)) j none := by
  funext t
  rw [entryAt, hids, hside, hloc, hpx, hrem]
  by_cases htj : t = j
  · subst htj
    rw [Function.update_self, if_pos rfl, Function.update_self]
  · by_cases hti : t = i
    · subst hti
      simp only [Function.update_of_ne htj, Function.update_self, entryAt, if_neg hj]
    · simp only [Function.update_of_ne htj, Function.update_of_ne hti, entryAt]

/-- The loop on the arrays is the backward shift on the entries. -/
theorem eraseLoop_shift {fuel : ℕ} {slots : ℕ → Option (ℕ × Order)} (hl : Laid c)
    (hi : i < c.cap) (hj : j < c.cap)
    (hrun : Probing.shift c.cap (fun e => c.home e.1) fuel i j c.entryAt = some slots) :
    ∃ c', eraseLoop fuel i j c = .ok c' ∧ c'.cap = c.cap ∧ c'.mask = c.mask ∧
      c'.shift = c.shift ∧ c'.len = c.len ∧ c'.entryAt = slots := by
  induction fuel generalizing i j c with
  | zero => cases hrun
  | succ fuel ih =>
      have hj' := Probing.next_lt hj
      rw [Probing.shift] at hrun
      rw [eraseLoop]
      simp only [hl.next_eq hj] at hrun ⊢
      by_cases hempty : c.ids (Probing.next c.cap j) = 0
      · rw [entryAt_eq_none.mpr hempty] at hrun
        rw [if_pos hempty]
        exact ⟨c, rfl, rfl, rfl, rfl, rfl, Option.some.inj hrun⟩
      · have hentry : c.entryAt (Probing.next c.cap j) = some (c.ids (Probing.next c.cap j), _) :=
          entryAt_eq_some.mpr ⟨hempty, rfl, rfl⟩
        rw [hentry] at hrun
        rw [if_neg hempty, hl.dist_eq (hl.home_lt _) hj', hl.dist_eq hi hj']
        simp only at hrun
        split at hrun
        · next hgo =>
            rw [if_pos hgo]
            refine ih (hl.of_frame ?_ ?_) hj' hj' ?_
            · rfl
            · rfl
            rw [← hentry] at hrun
            rw [← hrun]
            exact congrArg (Probing.shift _ _ _ _ _) (entryAt_move hempty rfl rfl rfl rfl rfl)
        · next hstay =>
            rw [if_neg hstay]
            exact ih hl hi hj' hrun

/-! ## The load -/

theorem liveIds_insert (b : Book) (id : ℕ) (o : Order) :
    liveIds (Function.update b id (some o)) =
      if id = 0 then liveIds b else insert id (liveIds b) := by
  ext id'
  rw [liveIds, Set.mem_ofPred_eq, Function.update_apply]
  split
  · next heq =>
      subst heq
      split <;> simp [liveIds, *]
  · next hne => split <;> simp [liveIds, hne]

theorem liveIds_erase (b : Book) (id : ℕ) :
    liveIds (Function.update b id none) = liveIds b \ {id} := by
  ext id'
  rw [liveIds, Set.mem_ofPred_eq, Function.update_apply]
  by_cases heq : id' = id <;> simp [liveIds, heq]

theorem liveIds_setRem (b : Book) (id rem : ℕ) :
    liveIds (Function.update b id ((b id).map fun o => { o with rem := rem })) = liveIds b := by
  ext id'
  refine and_congr_right fun _ => not_congr ?_
  rw [Function.update_apply]
  split
  · next heq => rw [heq, Option.map_eq_none_iff]
  · rfl

namespace Counted

variable (hc : Counted c b z)
include hc

theorem ncard_le : ((liveIds b).ncard : ℤ) * 10 ≤ c.cap * 7 + 10 := by
  have hlow := hc.low
  have hload := hc.load
  omega

/-- The load bound leaves an empty slot. -/
theorem room (h : Stands c b) : ∃ z < c.cap, c.ids z = 0 := by
  have hle := hc.ncard_le
  have height := h.eight_le
  have hlt : (liveIds b).ncard < c.cap := by omega
  rw [← h.keys_eq] at hlt
  obtain ⟨z, hz, hnone⟩ := h.probed.exists_empty hlt
  exact ⟨z, hz, entryAt_eq_none.mp hnone⟩

/-- And another one beside the empty slot that a probe for id 0 stops at. -/
theorem room_beside (h : Stands c b) (hf : Found c 0 s) (hempty : c.ids s = 0) :
    ∃ z < c.cap, z ≠ s ∧ c.ids z = 0 := by
  have hnone := entryAt_eq_none.mpr hempty
  have hprobed := h.probed.insert hf.lt hnone (e := (0, ⟨0, 0, 0, 0⟩)) hf.not_stops
  have hle := hc.ncard_le
  have height := h.eight_le
  have hkeys : {id | ∃ e, Probing.Holds c.cap
      (Function.update c.entryAt s (some (0, ⟨0, 0, 0, 0⟩))) e ∧ e.1 = id} =
        insert 0 (liveIds b) := by
    rw [← h.keys_eq]
    ext id
    simp only [Probing.Probed.holds_insert hf.lt hnone, Set.mem_ofPred_eq, Set.mem_insert_iff,
      or_and_right, exists_or, exists_eq_left, @eq_comm _ 0 id]
  have hcard := Set.ncard_insert_le 0 (liveIds b)
  obtain ⟨z, hz, hzn⟩ := hprobed.exists_empty (by rw [hkeys]; omega)
  have hzs : z ≠ s := by
    rintro rfl
    rw [Function.update_self] at hzn
    cases hzn
  rw [Function.update_of_ne hzs] at hzn
  exact ⟨z, hz, hzs, entryAt_eq_none.mp hzn⟩

theorem loadFactorOk_iff (h : Stands c b) :
    c.loadFactorOk ↔ ((liveIds b).ncard + z + 1) * 10 ≤ c.cap * 7 := by
  have hlow := hc.low
  have hload := hc.load
  have hlen := hc.len
  have hlt := h.lt_pow
  have hstep : (wrappingAdd c.len 1 : ℤ) = (liveIds b).ncard + z + 1 := by
    rw [wrappingAdd]
    omega
  rw [loadFactorOk, Nat.mod_eq_of_lt (show wrappingAdd c.len 1 * 10 < 2 ^ 64 by omega),
    Nat.mod_eq_of_lt (show c.cap * 7 < 2 ^ 64 by omega)]
  omega

theorem of_same (hcap : c'.cap = c.cap) (hlen : c'.len = c.len) (hb : liveIds b' = liveIds b) :
    Counted c' b' z := by
  obtain ⟨hfinite, hlow, hload, hlen'⟩ := hc
  constructor
  · rwa [hb]
  · exact hlow
  · rwa [hb, hcap]
  · rwa [hb, hlen]

/-- A birth below the load bound. -/
protected theorem insert (h : Stands c b)
    (hok : ((liveIds b).ncard + z + 1) * 10 ≤ c.cap * 7) (hcap : c'.cap = c.cap)
    (hlen : c'.len = if id ≠ 0 ∧ b id ≠ none then c.len else wrappingAdd c.len 1) :
    Counted c' (Function.update b id (some o)) (z + if id = 0 then 1 else 0) := by
  have hlow := hc.low
  have hload := hc.load
  have hclen := hc.len
  have hlt := h.lt_pow
  have hlive := liveIds_insert b id o
  by_cases hid : id = 0
  · rw [if_pos hid] at hlive ⊢
    rw [if_neg fun hboth => hboth.1 hid, wrappingAdd] at hlen
    constructor
    · rw [hlive]
      exact hc.finite
    · omega
    · rw [hlive, hcap]
      omega
    · rw [hlive]
      omega
  · rw [if_neg hid] at hlive
    rw [if_neg hid, add_zero]
    by_cases hborn : b id = none
    · have hnew : id ∉ liveIds b := fun hmem => hmem.2 hborn
      have hcard := Set.ncard_insert_of_notMem hnew hc.finite
      rw [if_neg fun hboth => hboth.2 hborn, wrappingAdd] at hlen
      constructor
      · rw [hlive]
        exact hc.finite.insert _
      · exact hlow
      · rw [hlive, hcap, hcard]
        omega
      · rw [hlive, hcard]
        omega
    · rw [Set.insert_eq_of_mem (show id ∈ liveIds b from ⟨hid, hborn⟩)] at hlive
      rw [if_pos ⟨hid, hborn⟩] at hlen
      exact hc.of_same hcap hlen hlive

/-- A deletion; one of id 0 takes from the surplus. -/
theorem erase (h : Stands c b) (hzero : id = 0 → 0 ≤ z) (hcap : c'.cap = c.cap)
    (hlen : c'.len = if id = 0 ∨ b id ≠ none then wrappingSub c.len 1 else c.len) :
    Counted c' (Function.update b id none) (z - if id = 0 then 1 else 0) := by
  have hlow := hc.low
  have hload := hc.load
  have hclen := hc.len
  have hlt := h.lt_pow
  have hlive := liveIds_erase b id
  by_cases hid : id = 0
  · rw [hid, Set.sdiff_singleton_eq_self fun hmem => hmem.1 rfl] at hlive
    rw [if_pos hid]
    rw [if_pos (Or.inl hid), wrappingSub] at hlen
    subst hid
    have hz := hzero rfl
    constructor
    · rw [hlive]
      exact hc.finite
    · omega
    · rw [hlive, hcap]
      omega
    · rw [hlive]
      omega
  · rw [if_neg hid, sub_zero]
    by_cases hborn : b id = none
    · rw [Set.sdiff_singleton_eq_self fun hmem => hmem.2 hborn] at hlive
      rw [if_neg fun hor => hor.elim hid fun hne => hne hborn] at hlen
      exact hc.of_same hcap hlen hlive
    · have hcard := Set.ncard_sdiff_singleton_add_one (show id ∈ liveIds b from ⟨hid, hborn⟩)
        hc.finite
      rw [if_pos (Or.inr hborn), wrappingSub] at hlen
      constructor
      · rw [hlive]
        exact hc.finite.sdiff
      · exact hlow
      · rw [hlive, hcap]
        omega
      · rw [hlive]
        omega

end Counted

/-- Deletion removes the id and nothing else. -/
theorem erase_spec (h : Stands c b) (hc : Counted c b z) (id : ℕ) :
    ∃ c', c.erase id = .ok c' ∧ Stands c' (Function.update b id none) ∧ c'.cap = c.cap ∧
      c'.len = if id = 0 ∨ b id ≠ none then wrappingSub c.len 1 else c.len := by
  have hroom := hc.room h
  obtain ⟨s, chain, hseek, hf⟩ := seek_found h hroom id
  simp only [erase, hseek]
  by_cases hown : c.ids s = id
  · rw [if_pos hown]
    obtain ⟨z, hz, hzs, hempty⟩ : ∃ z < c.cap, z ≠ s ∧ c.ids z = 0 := by
      by_cases hid : id = 0
      · subst hid
        exact hc.room_beside h hf hown
      · obtain ⟨z, hz, hempty⟩ := hroom
        refine ⟨z, hz, fun hzs => hid ?_, hempty⟩
        rw [← hown, ← hzs, hempty]
    have hholed := Probing.Holed.of_probed h.probed hf.lt
    have hemptied : Function.update c.entryAt s none z = none := by
      rw [Function.update_of_ne hzs, entryAt_eq_none.mpr hempty]
    obtain ⟨slots, hshift, hprobed, hholds⟩ := Probing.shift_spec hholed hf.lt hf.lt hz hemptied
      hzs hzs.symm (Probing.dist_lt hf.lt hz).le
    generalize hd : ({ c with
      maxLifecycle := max c.maxLifecycle (c.touch s)
      ids := Function.update c.ids s 0
      len := wrappingSub c.len 1 } : OrderCache) = d
    have hentry : d.entryAt = Function.update c.entryAt s none := by
      funext t
      rw [← hd]
      by_cases hts : t = s <;> simp [hts, entryAt]
    have hlaid : Laid d := h.of_frame (by rw [← hd]) (by rw [← hd])
    have hdcap : d.cap = c.cap := by rw [← hd]
    have hdmask : d.mask = c.mask := by rw [← hd]
    have hdshift : d.shift = c.shift := by rw [← hd]
    have hdlen : d.len = wrappingSub c.len 1 := by rw [← hd]
    rw [← hentry, ← hdcap, ← home_eq hdmask hdshift] at hshift
    have hs : s < d.cap := hdcap ▸ hf.lt
    obtain ⟨c', hrun, hcap, hmask, hshift', hlen, hslots⟩ := eraseLoop_shift hlaid hs hs hshift
    rw [hdcap] at hrun hcap
    rw [hdmask] at hmask
    rw [hdshift] at hshift'
    rw [hdlen] at hlen
    refine ⟨c', hrun, ?_, hcap, ?_⟩
    · apply h.relayed hcap hmask hshift'
      · rw [hslots]
        exact hprobed
      · intro id' o
        rw [hslots, hholds, h.probed.holds_empty hf.lt, h.holds, and_assoc]
        refine and_congr_right fun hid' => ?_
        have hother : (∀ e, c.entryAt s = some e → id' ≠ e.1) ↔ id' ≠ id := by
          constructor
          · rintro hkeys rfl
            exact hkeys _ (entryAt_eq_some.mpr ⟨hown ▸ hid', hown, rfl⟩) rfl
          · rintro hne ⟨id'', o'⟩ he
            rw [← (entryAt_eq_some.mp he).2.1, hown]
            exact hne
        rw [hother, Function.update_apply]
        split
        · next heq => simp [heq]
        · next hne => simp [hne]
    · rw [hlen, if_pos]
      by_cases hid : id = 0
      · exact Or.inl hid
      · right
        rw [hf.present h (hown ▸ hid)]
        exact Option.some_ne_none _
  · rw [if_neg hown]
    have hempty := hf.stop.resolve_right hown
    have hid : id ≠ 0 := fun hid => hown (hempty.trans hid.symm)
    have habsent := hf.absent h hid hempty
    refine ⟨c, rfl, ?_, rfl, ?_⟩
    · rwa [← habsent, Function.update_eq_self]
    · rw [if_neg fun hor => hor.elim hid fun hne => hne habsent]

/-! ## Growth -/

/-- The orders in the slots below `n` of the old table. -/
def carried (old : OrderCache) (b : Book) (n : ℕ) : Book := fun id =>
  if ∃ p, p < n ∧ old.ids p ≠ 0 ∧ old.ids p = id then b id else none

theorem doubled_stands (h : Stands c b) (hsmall : c.cap * 2 < 2 ^ 60) :
    Stands c.doubled (carried c b 0) := by
  obtain ⟨k, hk, -, hcap⟩ := h.power
  have hlaid : Laid c.doubled := by
    constructor
    · refine ⟨k + 1, by omega, ?_, ?_⟩
      · rw [hcap, ← pow_succ] at hsmall
        exact (Nat.pow_lt_pow_iff_right (by decide)).mp hsmall
      · show c.cap * 2 = 2 ^ (k + 1)
        rw [hcap, pow_succ]
    · rfl
  have hnone : ∀ t, c.doubled.entryAt t = none := fun t => entryAt_eq_none.mpr rfl
  refine ⟨hlaid, ⟨hlaid.home_lt, ?_, ?_⟩, ?_⟩
  · intro s _ t _ e e' he
    rw [hnone] at he
    cases he
  · intro s _ e he
    rw [hnone] at he
    cases he
  · intro id o
    constructor
    · rintro ⟨t, -, he⟩
      rw [hnone] at he
      cases he
    · rintro ⟨-, ho⟩
      rw [carried, if_neg fun ⟨p, hp, _⟩ => absurd hp (Nat.not_lt_zero p)] at ho
      cases ho

theorem doubled_counted : Counted c.doubled (carried c b 0) 0 := by
  have hlive : liveIds (carried c b 0) = ∅ := by
    ext id
    simp [liveIds, carried]
  constructor
  · rw [hlive]
    exact Set.finite_empty
  · decide
  · rw [hlive, Set.ncard_empty]
    omega
  · rw [hlive, Set.ncard_empty]
    rfl

/-- One more slot of the old table. -/
theorem carried_succ (h : Stands c b) (hi : i < c.cap) :
    carried c b (i + 1) = if c.ids i = 0 then carried c b i
      else Function.update (carried c b i) (c.ids i)
        (some ⟨c.side i, c.loc i, c.px i, c.rem i⟩) := by
  funext id
  have hslots : (∃ p, p < i + 1 ∧ c.ids p ≠ 0 ∧ c.ids p = id) ↔
      (∃ p, p < i ∧ c.ids p ≠ 0 ∧ c.ids p = id) ∨ (c.ids i ≠ 0 ∧ c.ids i = id) := by
    simp only [Nat.lt_succ_iff_lt_or_eq, or_and_right, exists_or, exists_eq_left]
  by_cases hempty : c.ids i = 0
  · rw [if_pos hempty]
    simp only [carried, hslots, hempty, ne_eq, not_true_eq_false, false_and, or_false]
  · rw [if_neg hempty, Function.update_apply]
    split
    · next heq =>
        subst heq
        have hentry : c.entryAt i = some (c.ids i, _) := entryAt_eq_some.mpr ⟨hempty, rfl, rfl⟩
        rw [carried, if_pos (hslots.mpr (Or.inr ⟨hempty, rfl⟩))]
        exact ((h.holds _ _).mp ⟨i, hi, hentry⟩).2
    · next hne =>
        simp only [carried, hslots, Ne.symm hne, and_false, or_false]

/-- The slot's key has not been carried over before. -/
theorem carried_fresh (h : Stands c b) (hi : i < c.cap) (hfull : c.ids i ≠ 0) :
    carried c b i (c.ids i) = none := by
  rw [carried, if_neg]
  rintro ⟨p, hp, hpfull, heq⟩
  have hpe : c.entryAt p = some (c.ids i, _) := entryAt_eq_some.mpr ⟨hpfull, heq, rfl⟩
  have hie : c.entryAt i = some (c.ids i, _) := entryAt_eq_some.mpr ⟨hfull, rfl, rfl⟩
  exact Nat.ne_of_lt hp (h.probed.unique p (hp.trans hi) i hi _ _ hpe hie rfl)

theorem refill_spec {old : OrderCache} {n : ℕ} (hold : Stands old b) (hn : i + n = old.cap)
    (h : Stands c (carried old b i)) (hc : Counted c (carried old b i) 0)
    (hcap : c.cap = old.cap * 2) (hle : (liveIds (carried old b i)).ncard ≤ i) :
    ∃ c', refill old n i c = .ok c' ∧ Stands c' (carried old b old.cap) ∧
      Counted c' (carried old b old.cap) 0 ∧ c'.cap = old.cap * 2 := by
  induction n generalizing i c with
  | zero =>
      rw [Nat.add_zero] at hn
      subst hn
      exact ⟨c, rfl, h, hc, hcap⟩
  | succ n ih =>
      have hi : i < old.cap := by omega
      have hsucc := carried_succ hold hi
      rw [refill]
      by_cases hempty : old.ids i = 0
      · rw [if_pos hempty] at hsucc
        rw [if_neg (not_not.mpr hempty)]
        apply ih (by omega)
        · rwa [hsucc]
        · rwa [hsucc]
        · exact hcap
        · rw [hsucc]
          omega
      · rw [if_neg hempty] at hsucc
        rw [if_pos hempty]
        obtain ⟨c', hrun, hstands, hcap', hlen⟩ := insertRaw_spec h (hc.room h) (old.ids i)
          ⟨old.side i, old.loc i, old.px i, old.rem i⟩
        have hcounted := hc.insert (o := ⟨old.side i, old.loc i, old.px i, old.rem i⟩) h
          (by omega) hcap' hlen
        have hlive := liveIds_insert (carried old b i) (old.ids i)
          ⟨old.side i, old.loc i, old.px i, old.rem i⟩
        have hcard := Set.ncard_insert_le (old.ids i) (liveIds (carried old b i))
        rw [if_neg hempty, ← hsucc] at hlive
        rw [if_neg hempty, add_zero] at hcounted
        rw [← hsucc] at hstands hcounted
        rw [hrun]
        apply ih (by omega) hstands hcounted (hcap'.trans hcap)
        rw [hlive]
        omega

/-- Growth carries every order over and forgets the surplus of the count. -/
theorem grow_spec (h : Stands c b) (hsmall : c.cap * 2 < 2 ^ 60) :
    ∃ c', c.grow = .ok c' ∧ Stands c' b ∧ c'.cap = c.cap * 2 ∧ Counted c' b 0 := by
  have hall : ∀ id ≠ 0, carried c b c.cap id = b id := by
    intro id hid
    rw [carried]
    split
    · rfl
    · next habsent =>
        by_contra hlive
        obtain ⟨o, ho⟩ := Option.ne_none_iff_exists'.mp (Ne.symm hlive)
        obtain ⟨p, hp, he⟩ := (h.holds id o).mpr ⟨hid, ho⟩
        obtain ⟨hfull, heq, -⟩ := entryAt_eq_some.mp he
        exact habsent ⟨p, hp, hfull, heq⟩
  have hlive : liveIds b = liveIds (carried c b c.cap) := by
    ext id
    exact and_congr_right fun hid => by rw [hall id hid]
  have hstart : (liveIds (carried c b 0)).ncard ≤ 0 := by
    have hlive : liveIds (carried c b 0) = ∅ := by
      ext id
      simp [liveIds, carried]
    rw [hlive, Set.ncard_empty]
  obtain ⟨c', hrun, hstands, hcounted, hcap⟩ := refill_spec h (Nat.zero_add _)
    (doubled_stands h hsmall) doubled_counted rfl hstart
  refine ⟨c', ?_, hstands.of_entryAt rfl rfl rfl rfl fun id hid => (hall id hid).symm, hcap,
    hcounted.of_same rfl rfl hlive⟩
  rw [grow, if_neg (by omega), hrun]

/-- An insertion fails only where the doubled arrays would be too large to allocate. -/
theorem insert_spec (h : Stands c b) (hc : Counted c b z) (id : ℕ) (o : Order) :
    (c.insert id o.rem o.px o.loc o.side = .error .capacityOverflow ∧
      2 ^ 58 ≤ (liveIds b).ncard + z) ∨
    ∃ c' z₀, c.insert id o.rem o.px o.loc o.side = .ok c' ∧
      Stands c' (Function.update b id (some o)) ∧ (z₀ = z ∨ z₀ = 0) ∧
      Counted c' (Function.update b id (some o)) (z₀ + if id = 0 then 1 else 0) := by
  have hload := hc.load
  have hlow := hc.low
  rw [OrderCache.insert]
  by_cases hok : c.loadFactorOk
  · rw [if_pos hok]
    obtain ⟨c', hrun, hstands, hcap, hlen⟩ := insertRaw_spec h (hc.room h) id o
    refine Or.inr ⟨c', z, hrun, hstands, Or.inl rfl, ?_⟩
    exact hc.insert h ((hc.loadFactorOk_iff h).mp hok) hcap hlen
  · rw [if_neg hok]
    rw [hc.loadFactorOk_iff h] at hok
    by_cases hsmall : c.cap * 2 < 2 ^ 60
    · obtain ⟨c₁, hgrow, hstands₁, hcap₁, hc₁⟩ := grow_spec h hsmall
      have height := h.eight_le
      obtain ⟨c', hrun, hstands, hcap, hlen⟩ := insertRaw_spec hstands₁ (hc₁.room hstands₁) id o
      rw [hgrow]
      refine Or.inr ⟨c', 0, hrun, hstands, Or.inr rfl, hc₁.insert hstands₁ ?_ hcap hlen⟩
      have hle := hc.ncard_le
      omega
    · rw [grow, if_pos (by omega)]
      refine Or.inl ⟨rfl, ?_⟩
      omega

/-! ## Runs of calls -/

theorem call_spec (h : Stands c b) (hc : Counted c b 0) (next : Call) (hid : next.id ≠ 0) :
    (c.call next = .error .capacityOverflow ∧ 2 ^ 58 ≤ (liveIds b).ncard) ∨
    ∃ c', c.call next = .ok (next.answer b, c') ∧ Stands c' (next.apply b) ∧
      Counted c' (next.apply b) 0 := by
  have hroom := hc.room h
  cases next with
  | insert id o =>
      rcases insert_spec h hc id o with ⟨hrun, hbig⟩ | ⟨c', z₀, hrun, hstands, hz, hcounted⟩
      · rw [call, hrun]
        exact Or.inl ⟨rfl, by omega⟩
      · rw [if_neg (show id ≠ 0 from hid), add_zero, or_self_iff.mp hz] at hcounted
        rw [call, hrun]
        exact Or.inr ⟨c', rfl, hstands, hcounted⟩
  | probe id =>
      obtain ⟨r, c', hrun, hstands, hcap, hlen, hr, -⟩ := probe_spec h hroom id
      rw [call, hrun, hr hid]
      exact Or.inr ⟨c', rfl, hstands, hc.of_same hcap hlen rfl⟩
  | setRem id rem =>
      obtain ⟨c', hrun, hstands, hcap, hlen⟩ := setRem_spec h hroom id rem
      rw [call, hrun]
      exact Or.inr ⟨c', rfl, hstands, hc.of_same hcap hlen (liveIds_setRem b id rem)⟩
  | erase id =>
      obtain ⟨c', hrun, hstands, hcap, hlen⟩ := erase_spec h hc id
      have hcounted := hc.erase h (fun hz => absurd hz hid) hcap hlen
      rw [if_neg hid, sub_zero] at hcounted
      rw [call, hrun]
      exact Or.inr ⟨c', rfl, hstands, hcounted⟩

theorem apply_of_ne {next : Call} (hne : id ≠ next.id) : next.apply b id = b id := by
  cases next with
  | probe _ => rfl
  | insert _ _ => exact Function.update_of_ne hne ..
  | setRem _ _ => exact Function.update_of_ne hne ..
  | erase _ => exact Function.update_of_ne hne ..

/-- A call adds one live reference at most. -/
theorem ncard_apply_le (hfinite : (liveIds b).Finite) (next : Call) :
    (liveIds (next.apply b)).ncard ≤ (liveIds b).ncard + 1 := by
  have hsub : liveIds (next.apply b) ⊆ Insert.insert next.id (liveIds b) := by
    rintro id ⟨hid, hlive⟩
    by_cases heq : id = next.id
    · exact Or.inl heq
    · rw [apply_of_ne heq] at hlive
      exact Or.inr ⟨hid, hlive⟩
  exact (Set.ncard_le_ncard hsub (hfinite.insert _)).trans (Set.ncard_insert_le ..)

theorem run_spec (h : Stands c b) (hc : Counted c b 0) (calls : List Call)
    (hids : ∀ next ∈ calls, next.id ≠ 0) :
    match run calls c with
    | .error f => f = .capacityOverflow ∧ 2 ^ 58 ≤ (liveIds b).ncard + calls.length
    | .ok (rs, c') => rs = answers b calls ∧ Stands c' (calls.foldl Call.apply b) ∧
        Counted c' (calls.foldl Call.apply b) 0 := by
  induction calls generalizing c b with
  | nil => exact ⟨rfl, h, hc⟩
  | cons next calls ih =>
      have hcard := ncard_apply_le hc.finite next
      rw [run]
      rcases call_spec h hc next (hids next List.mem_cons_self) with
        ⟨hrun, hbig⟩ | ⟨c', hrun, hstands, hcounted⟩
      · rw [hrun]
        exact ⟨rfl, by omega⟩
      · have hrest := ih hstands hcounted fun next' hmem => hids next' (List.mem_cons_of_mem _ hmem)
        rw [hrun]
        simp only
        split at hrest
        · next f =>
            refine ⟨hrest.1, ?_⟩
            rw [List.length_cons]
            omega
        · exact ⟨congrArg _ hrest.1, hrest.2⟩

theorem new_stands : Stands (new 16) fun _ => none := by
  have hlaid : Laid (new 16) := ⟨⟨16, by decide, by decide, rfl⟩, rfl⟩
  have hnone : ∀ t, (new 16).entryAt t = none := fun t => entryAt_eq_none.mpr rfl
  refine ⟨hlaid, ⟨hlaid.home_lt, ?_, ?_⟩, ?_⟩
  · intro s _ t _ e e' he
    rw [hnone] at he
    cases he
  · intro s _ e he
    rw [hnone] at he
    cases he
  · intro id o
    constructor
    · rintro ⟨t, -, he⟩
      rw [hnone] at he
      cases he
    · rintro ⟨-, ho⟩
      cases ho

theorem new_counted : Counted (new 16) (fun _ => none) 0 := by
  have hlive : liveIds (fun _ => none) = ∅ := by
    ext id
    simp [liveIds]
  constructor
  · rw [hlive]
    exact Set.finite_empty
  · decide
  · rw [hlive, Set.ncard_empty]
    decide
  · rw [hlive, Set.ncard_empty]
    rfl

/-- For every run of calls with non-zero ids, the table answers as the finite map, counts its
live orders and leaves each of them reachable from its home slot. The one failure is an
allocation of `2 ^ 60` slots, after `2 ^ 58` calls at the least. -/
theorem order_cache_is_finite_map (calls : List Call) (hids : ∀ next ∈ calls, next.id ≠ 0) :
    match run calls (new 16) with
    | .error f => f = .capacityOverflow ∧ 2 ^ 58 ≤ calls.length
    | .ok (rs, c) =>
        rs = answers (fun _ => none) calls ∧
        c.len = (liveIds (calls.foldl Call.apply fun _ => none)).ncard ∧
        ∀ id ∈ liveIds (calls.foldl Call.apply fun _ => none), ∃ s < c.cap, c.ids s = id ∧
          ∀ p < c.cap, Probing.dist c.cap (c.home id) p < Probing.dist c.cap (c.home id) s →
            c.ids p ≠ 0 := by
  have hrun := run_spec new_stands new_counted calls hids
  split at hrun
  · next f heq =>
      have hlive : liveIds (fun _ => none) = ∅ := by
        ext id
        simp [liveIds]
      rw [hlive, Set.ncard_empty, Nat.zero_add] at hrun
      exact hrun
  · next rs c heq =>
      obtain ⟨hrs, hstands, hcounted⟩ := hrun
      refine ⟨hrs, ?_, fun id hid => ?_⟩
      · have hlen := hcounted.len
        have hload := hcounted.load
        have hlt := hstands.lt_pow
        omega
      · rw [← hstands.keys_eq] at hid
        obtain ⟨⟨_, o⟩, ⟨s, hs, he⟩, rfl⟩ := hid
        refine ⟨s, hs, (entryAt_eq_some.mp he).2.1, fun p hp hlt hempty => ?_⟩
        exact hstands.probed.path s hs _ he p hp hlt (entryAt_eq_none.mpr hempty)

theorem order_cache_is_finite_map_lifecycle :
    match run [.insert 5 ⟨66, 1, 100, 40⟩, .setRem 5 15, .probe 5, .erase 5, .erase 7, .probe 5]
      (new 16) with
    | .error f => f = .capacityOverflow ∧ 2 ^ 58 ≤ 6
    | .ok (rs, c) =>
        rs = [none, none, some (some (1, 66, 15, 100)), none, none, some none] ∧ c.len = 0 := by
  have hmap := order_cache_is_finite_map
    [.insert 5 ⟨66, 1, 100, 40⟩, .setRem 5 15, .probe 5, .erase 5, .erase 7, .probe 5] (by decide)
  split at hmap
  · exact hmap
  · have hlive : liveIds (List.foldl Call.apply (fun _ => none) [.insert 5 ⟨66, 1, 100, 40⟩,
        .setRem 5 15, .probe 5, .erase 5, .erase 7, .probe 5]) = ∅ := by
      ext id
      simp only [liveIds, List.foldl_cons, List.foldl_nil, Call.apply, Function.update_apply]
      split_ifs <;> simp_all
    rw [hlive, Set.ncard_empty] at hmap
    exact ⟨hmap.1, hmap.2.1⟩

end OrderCache

end HftProj.Testkit
