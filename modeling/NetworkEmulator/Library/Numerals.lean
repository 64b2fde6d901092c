/-
Numerals under names.

A numeral of a field rests on a proof that it is at least two.  The numerals of the models
have that proof under a name, so that each of them is one term in all modules.
-/
import Mathlib.Data.Nat.Init

namespace Numerals

scoped instance two : Nat.AtLeastTwo 2 := inferInstance

scoped instance three : Nat.AtLeastTwo 3 := inferInstance

scoped instance eight : Nat.AtLeastTwo 8 := inferInstance

scoped instance nine : Nat.AtLeastTwo 9 := inferInstance

scoped instance ten : Nat.AtLeastTwo 10 := inferInstance

scoped instance thousand : Nat.AtLeastTwo 1000 := inferInstance

scoped instance million : Nat.AtLeastTwo 1000000 := inferInstance

end Numerals
