/-
An amount in pieces, and pieces under numbers that come round again.

An amount is taken apart into pieces of one size, and a last one for what is left.  There
are as many as the quotient rounded up, so what is left is more than nothing and no more
than a piece.

A number of bounded width counts up and starts over.  The numbers of a row are then
distinct exactly when the row is no longer than there are numbers.
-/
import Mathlib

namespace Pieces

/-! ### Amounts -/

section Amounts

variable {K : Type} [Field K] [LinearOrder K] [IsStrictOrderedRing K] [FloorRing K] {s x : K}

/-- What is left of `x` for the last piece, the others being of size `s`. -/
def rest (s x : K) : K := x - (⌈x / s⌉ - 1) * s

/-- The pieces of `x`. -/
def pieces (s x : K) : List K := List.replicate (⌈x / s⌉ - 1).toNat s ++ [rest s x]

theorem rest_le (hs : 0 < s) : rest s x ≤ s := by
  have hceil : x ≤ ⌈x / s⌉ * s := (div_le_iff₀ hs).mp (Int.le_ceil (x / s))
  unfold rest
  linarith

theorem rest_pos (hs : 0 < s) : 0 < rest s x := by
  have hceil : (⌈x / s⌉ - 1 : K) < x / s := sub_lt_iff_lt_add.mpr (Int.ceil_lt_add_one (x / s))
  have hless := (lt_div_iff₀ hs).mp hceil
  unfold rest
  linarith

/-- There is at least one piece. -/
theorem one_le_ceil (hs : 0 < s) (hx : 0 < x) : 1 ≤ ⌈x / s⌉ :=
  Int.one_le_ceil_iff.mpr (div_pos hx hs)

/-- **The pieces make up the amount.** -/
theorem sum_pieces (hs : 0 < s) (hx : 0 < x) : (pieces s x).sum = x := by
  have hcount : (((⌈x / s⌉ - 1).toNat : ℤ) : K) = ⌈x / s⌉ - 1 := by
    rw [Int.toNat_of_nonneg (by have := one_le_ceil hs hx; omega)]
    push_cast
    rfl
  rw [pieces, List.sum_append, List.sum_replicate, List.sum_singleton, nsmul_eq_mul,
    ← Int.cast_natCast, hcount, rest]
  ring

/-- Each of them is of some size, and no larger than a piece. -/
theorem mem_pieces (hs : 0 < s) {y : K} (hy : y ∈ pieces s x) : 0 < y ∧ y ≤ s := by
  rcases List.mem_append.mp hy with hy | hy
  · rw [List.eq_of_mem_replicate hy]
    exact ⟨hs, le_rfl⟩
  · rw [List.mem_singleton.mp hy]
    exact ⟨rest_pos hs, rest_le hs⟩

omit [IsStrictOrderedRing K] in
/-- Only the last one may be smaller. -/
theorem mem_dropLast_pieces {y : K} (hy : y ∈ (pieces s x).dropLast) : y = s := by
  rw [pieces, List.dropLast_concat] at hy
  exact List.eq_of_mem_replicate hy

/-- There are as many as the quotient rounded up. -/
theorem length_pieces (hs : 0 < s) (hx : 0 < x) : ((pieces s x).length : ℤ) = ⌈x / s⌉ := by
  have hone := one_le_ceil hs hx
  rw [pieces, List.length_append, List.length_replicate, List.length_singleton]
  omega

end Amounts

/-! ### Numbers -/

section Numbers

variable {α : Type} {f : ℕ → α} {m : ℕ}

/-- **Numbers that come round after `m` are distinct in a row of at most `m`.** -/
theorem nodup_map_range'_iff (hm : 0 < m) (hf : ∀ i j, f i = f j ↔ i ≡ j [MOD m]) (a n : ℕ) :
    ((List.range' a n).map f).Nodup ↔ n ≤ m := by
  constructor
  · intro hnodup
    by_contra hlong
    have hfirst : a ∈ List.range' a n := List.mem_range'_1.mpr ⟨le_rfl, by omega⟩
    have hagain : a + m ∈ List.range' a n := List.mem_range'_1.mpr ⟨by omega, by omega⟩
    have hsame : f a = f (a + m) := (hf a (a + m)).mpr (Nat.add_modEq_right).symm
    have heq := List.inj_on_of_nodup_map hnodup hfirst hagain hsame
    omega
  · intro hshort
    refine List.Nodup.map_on (fun i hi j hj hsame => ?_) List.nodup_range'
    rw [List.mem_range'_1] at hi hj
    have hmod := (hf i j).mp hsame
    rcases Nat.le_total i j with hle | hle
    · have hzero := Nat.eq_zero_of_dvd_of_lt ((Nat.modEq_iff_dvd' hle).mp hmod) (by omega)
      omega
    · have hzero := Nat.eq_zero_of_dvd_of_lt ((Nat.modEq_iff_dvd' hle).mp hmod.symm) (by omega)
      omega

end Numbers

end Pieces
