import HftProj.Testkit.SpanField

/-!
# Four products at a time

The wide multiply puts four operands into the even words of a register, multiplies lane by lane
and leaves the reduced products in the even words. The odd words hold residue.
-/

namespace HftProj.Testkit.SpanField

open HftProj.Lib

/-! ## The register -/

/-- The eight words of a wide register. -/
abbrev Zmm := Fin 8 → BitVec 64

namespace Zmm

def xor (a b : Zmm) : Zmm := fun i => a i ^^^ b i

/-- Four words below four zeros. -/
def zext256 (a : Fin 4 → BitVec 64) : Zmm := fun i => if h : i.val < 4 then a ⟨i.val, h⟩ else 0#64

/-- The permutation reads the low three bits of an index. -/
def permutexvar (idx : Fin 8 → ℕ) (src : Zmm) : Zmm := fun i => src (Fin.ofNat 8 (idx i))

/-- The low or the high word of the lane that holds a word. -/
def half (high : Bool) (i : Fin 8) : Fin 8 := ⟨2 * (i.val / 2) + high.toNat, by
  have htwo : high.toNat ≤ 1 := Bool.toNat_le high
  omega⟩

/-- The carry-less product in every lane, of the first operand's half that the immediate
selects and the second operand's low half. -/
def clmulepi64 (high : Bool) (a b : Zmm) : Zmm := fun i =>
  let p := SpanField.clmulepi64 (a (half high i)) (b (half false i))
  if i.val % 2 = 0 then low64 p else high64 p

def maskzMov (mask : BitVec 8) (a : Zmm) : Zmm := fun i => if mask.getLsbD i then a i else 0#64

end Zmm

/-! ## The products -/

/-- The even-word placement permute. -/
def spread : Fin 8 → ℕ := ![0, 8, 1, 9, 2, 10, 3, 11]

/-- The three-step reduction of four products, residue included. -/
def lanes4 (a b : Fin 4 → BitVec 64) : Zmm :=
  let q : Zmm := fun _ => spanQlow
  let p := Zmm.clmulepi64 false (Zmm.permutexvar spread (Zmm.zext256 a))
    (Zmm.permutexvar spread (Zmm.zext256 b))
  let t := Zmm.clmulepi64 true p q
  let u := Zmm.clmulepi64 true t q
  Zmm.xor (Zmm.xor p t) u

/-- The even words of a register, the others masked out. -/
def evenWords (acc : Zmm) : Fin 4 → BitVec 64 :=
  let buf := Zmm.maskzMov 0x55 acc
  ![buf 0, buf 2, buf 4, buf 6]

/-- `mulmod4x4`. -/
def mulmod4x4 (a b : Fin 4 → BitVec 64) : Fin 4 → BitVec 64 := evenWords (lanes4 a b)

theorem evenWords_apply (acc : Zmm) :
    evenWords acc = ![acc 0, acc 2, acc 4, acc 6] := rfl

theorem lanes4_even (a b : Fin 4 → BitVec 64) :
    evenWords (lanes4 a b) = fun m => mulmodClmul (a m) (b m) := by
  ext1 m
  fin_cases m <;> rfl

theorem mulmod4x4_eq (cpu : Cpu) (a b : Fin 4 → BitVec 64) (m : Fin 4) :
    mulmod4x4 a b m = mulmod cpu (a m) (b m) :=
  (congrFun (lanes4_even a b) m).trans (mulmod_paths ⟨true, false, false⟩ cpu (a m) (b m))

end HftProj.Testkit.SpanField
