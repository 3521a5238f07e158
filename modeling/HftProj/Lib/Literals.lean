import Mathlib.Algebra.GroupWithZero.Nat

/-!
# Literals of small index types

The sizes of the index types below are not zero. Each of these facts has a name, so a literal of
such a type refers to the name.
-/

namespace HftProj.Lib

instance neZeroTwo : NeZero 2 := ⟨by decide⟩

instance neZeroThree : NeZero 3 := ⟨by decide⟩

instance neZeroFour : NeZero 4 := ⟨by decide⟩

instance neZeroEight : NeZero 8 := ⟨by decide⟩

instance neZeroTen : NeZero 10 := ⟨by decide⟩

end HftProj.Lib
