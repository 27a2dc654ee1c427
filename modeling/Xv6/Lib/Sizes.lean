import Mathlib.Algebra.GroupWithZero.Nat

/-!
# Sizes of tables

A numeral of `Fin n` carries a proof that `n` is not 0. For the sizes in use it is a constant.
-/

namespace Xv6

instance (priority := 1100) neZero2 : NeZero 2 := ⟨by decide⟩
instance (priority := 1100) neZero3 : NeZero 3 := ⟨by decide⟩
instance (priority := 1100) neZero4 : NeZero 4 := ⟨by decide⟩
instance (priority := 1100) neZero32 : NeZero 32 := ⟨by decide⟩
instance (priority := 1100) neZero50 : NeZero 50 := ⟨by decide⟩
instance (priority := 1100) neZero128 : NeZero 128 := ⟨by decide⟩
instance (priority := 1100) neZero1024 : NeZero 1024 := ⟨by decide⟩

end Xv6
