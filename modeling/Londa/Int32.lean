import Mathlib.Algebra.Order.Ring.Int

/-!
# Values of the type `int`

`int32 z` is what a 32-bit `int` holds after `z` is stored in it. Stores and atomic
additions wrap; values in range are kept.
-/

namespace Londa

@[irreducible] def int32 (z : ℤ) : ℤ := z.bmod (2 ^ 32)

variable {z : ℤ}

theorem int32_eq (hlo : -2 ^ 31 ≤ z) (hhi : z < 2 ^ 31) : int32 z = z := by
  unfold int32
  exact Int.bmod_eq_of_le (by omega) (by omega)

theorem int32_le (h : 0 ≤ z) : int32 z ≤ z := by
  unfold int32
  rw [Int.bmod_def]
  split <;> omega

theorem int32_int32_add (z w : ℤ) : int32 (int32 z + w) = int32 (z + w) := by
  unfold int32
  rw [Int.bmod_add_bmod]

theorem int32_int32_sub (z w : ℤ) : int32 (int32 z - w) = int32 (z - w) := by
  rw [Int.sub_eq_add_neg, int32_int32_add, ← Int.sub_eq_add_neg]

end Londa
