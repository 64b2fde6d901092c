/-
Interpolation between values at whole numbers.

`interpolant n f u` weights the values `f 0`, …, `f (n - 1)` with hat functions, so that it
is plainly continuous in `u`.  Between two whole numbers it is the straight line through
their values, and `line` computes that line the way a program does: from the two indices
around `u`, without dividing, and with a branch for the case that they coincide.  The
indices a program gets by rounding and clamping are always of that kind.
-/
import Mathlib

namespace Interpolation

variable {K : Type} [Field K] [LinearOrder K] [IsStrictOrderedRing K]

/-! ### Hat functions -/

/-- The hat function: 1 at 0, falling to 0 at a distance of 1. -/
def hat (t : K) : K := max 0 (1 - |t|)

theorem hat_of_le {t : K} (h : |t| ≤ 1) : hat t = 1 - |t| := max_eq_right (sub_nonneg.mpr h)

theorem hat_of_ge {t : K} (h : 1 ≤ |t|) : hat t = 0 := max_eq_left (sub_nonpos.mpr h)

/-- The values at `0`, …, `n - 1`, each weighted with its hat. -/
def interpolant (n : ℕ) (f : ℕ → K) (u : K) : K := ∑ i ∈ Finset.range n, hat (u - i) * f i

/-- At a whole number there is its value. -/
theorem interpolant_natCast {n k : ℕ} (hk : k < n) (f : ℕ → K) : interpolant n f (k : K) = f k := by
  unfold interpolant
  rw [Finset.sum_eq_single_of_mem k (Finset.mem_range.mpr hk)]
  · rw [sub_self, hat_of_le (by simp), abs_zero, sub_zero, one_mul]
  · intro i _ hne
    have hfar : (1 : K) ≤ |(k : K) - i| := by
      have hint : (1 : ℤ) ≤ |(k : ℤ) - i| := Int.one_le_abs (by omega)
      exact_mod_cast hint
    rw [hat_of_ge hfar, zero_mul]

/-- Between two whole numbers there is the line through their values. -/
theorem interpolant_between {n k : ℕ} (hk : k + 1 < n) (f : ℕ → K) {u : K} (hle : (k : K) ≤ u)
    (hle' : u ≤ k + 1) : interpolant n f u = (k + 1 - u) * f k + (u - k) * f (k + 1) := by
  have hpair : ({k, k + 1} : Finset ℕ) ⊆ Finset.range n := by
    intro i hi
    simp only [Finset.mem_insert, Finset.mem_singleton] at hi
    rw [Finset.mem_range]
    omega
  unfold interpolant
  rw [← Finset.sum_subset hpair, Finset.sum_pair (by omega)]
  · have hnear : |u - k| = u - k := abs_of_nonneg (by linarith)
    have hnear' : |u - (k + 1 : ℕ)| = k + 1 - u := by
      rw [abs_of_nonpos (by push_cast; linarith)]
      push_cast
      ring
    rw [hat_of_le (by rw [hnear]; linarith), hat_of_le (by rw [hnear']; linarith), hnear, hnear']
    ring
  · intro i _ hi
    simp only [Finset.mem_insert, Finset.mem_singleton, not_or] at hi
    rw [hat_of_ge ?_, zero_mul]
    rcases Nat.lt_or_gt_of_ne hi.1 with hlt | hgt
    · have hcast : (i : K) + 1 ≤ k := by exact_mod_cast hlt
      rw [le_abs]
      exact Or.inl (by linarith)
    · have hcast : (k : K) + 2 ≤ i := by
        have hnat : k + 2 ≤ i := by omega
        exact_mod_cast hnat
      rw [le_abs]
      exact Or.inr (by linarith)

/-- The interpolant does not jump, also where the values change with the place. -/
theorem continuous_interpolant {n : ℕ} {X : Type} [TopologicalSpace X] {f : X → ℕ → ℝ}
    {u : X → ℝ} (hf : ∀ i, Continuous fun x => f x i) (hu : Continuous u) :
    Continuous fun x => interpolant n (f x) (u x) := by
  unfold interpolant hat
  refine continuous_finsetSum _ fun i _ => ?_
  exact (continuous_const.max (continuous_const.sub (hu.sub continuous_const).abs)).mul (hf i)

/-! ### The line between two neighbours -/

/-- The line through the values at two indices, which may coincide. -/
def line (i j : ℕ) (f : ℕ → K) (u : K) : K :=
  if i = j then f i else (j - u) * f i + (u - i) * f j

/-- The indices around a place: the place itself twice, or the two beside it. -/
def Around (n : ℕ) (u : K) (i j : ℕ) : Prop :=
  (i = j ∧ i < n ∧ u = i) ∨ (j = i + 1 ∧ j < n ∧ (i : K) ≤ u ∧ u ≤ i + 1)

variable {n i j : ℕ} {u : K}

omit [IsStrictOrderedRing K] in
theorem Around.lt (h : Around n u i j) : i < n ∧ j < n := by
  rcases h with ⟨rfl, hlt, -⟩ | ⟨rfl, hlt, -⟩
  · exact ⟨hlt, hlt⟩
  · exact ⟨by omega, hlt⟩

/-- **The line through the values around a place is the interpolant.** -/
theorem Around.line_eq (h : Around n u i j) (f : ℕ → K) : line i j f u = interpolant n f u := by
  unfold line
  rcases h with ⟨rfl, hlt, rfl⟩ | ⟨rfl, hlt, hle, hle'⟩
  · rw [if_pos rfl, interpolant_natCast hlt]
  · rw [if_neg (by omega), interpolant_between hlt f hle hle']
    push_cast
    ring

/-- It lies between the two values. -/
theorem Around.line_mem (h : Around n u i j) (f : ℕ → K) :
    min (f i) (f j) ≤ line i j f u ∧ line i j f u ≤ max (f i) (f j) := by
  unfold line
  rcases h with ⟨rfl, -, -⟩ | ⟨rfl, -, hle, hle'⟩
  · simp
  · rw [if_neg (by omega)]
    push_cast
    have hlow := min_le_left (f i) (f (i + 1))
    have hlow' := min_le_right (f i) (f (i + 1))
    have hhigh := le_max_left (f i) (f (i + 1))
    have hhigh' := le_max_right (f i) (f (i + 1))
    constructor <;> nlinarith

/-- One of the two values is not above it. -/
theorem Around.exists_le_line (h : Around n u i j) (f : ℕ → K) :
    ∃ k, (k = i ∨ k = j) ∧ f k ≤ line i j f u := by
  have hlow := (h.line_mem f).1
  rcases min_choice (f i) (f j) with heq | heq
  · exact ⟨i, Or.inl rfl, heq ▸ hlow⟩
  · exact ⟨j, Or.inr rfl, heq ▸ hlow⟩

/-- One of the two values is not below it. -/
theorem Around.exists_line_le (h : Around n u i j) (f : ℕ → K) :
    ∃ k, (k = i ∨ k = j) ∧ line i j f u ≤ f k := by
  have hhigh := (h.line_mem f).2
  rcases max_choice (f i) (f j) with heq | heq
  · exact ⟨i, Or.inl rfl, heq ▸ hhigh⟩
  · exact ⟨j, Or.inr rfl, heq ▸ hhigh⟩

/-! ### Rounding and clamping -/

/-- A place moved to the nearest one from the first to the last of `n` values. -/
def clampPlace (n : ℕ) (u : K) : K := max 0 (min u (n - 1))

/-- An index moved to the nearest of `n` values. -/
def clampIndex (n : ℕ) (z : ℤ) : ℤ := max 0 (min z (n - 1))

theorem clampIndex_nonneg (n : ℕ) (z : ℤ) : 0 ≤ clampIndex n z := le_max_left _ _

section Floor

variable [FloorRing K]

/-- Rounding down and up a place among the values. -/
theorem around_floor {u : K} (hlow : 0 ≤ u) (hhigh : u ≤ n - 1) :
    Around n u ⌊u⌋.toNat ⌈u⌉.toNat := by
  have hf0 : 0 ≤ ⌊u⌋ := Int.floor_nonneg.mpr hlow
  have hcn : ⌈u⌉ ≤ (n : ℤ) - 1 := Int.ceil_le.mpr (by push_cast; exact hhigh)
  have hfc : ⌊u⌋ ≤ ⌈u⌉ := Int.floor_le_ceil u
  have hstep : ⌈u⌉ ≤ ⌊u⌋ + 1 := Int.ceil_le_floor_add_one u
  have hcast : ((⌊u⌋.toNat : ℕ) : K) = (⌊u⌋ : K) := by
    have hint : ((⌊u⌋.toNat : ℤ) : K) = (⌊u⌋ : K) := by rw [Int.toNat_of_nonneg hf0]
    rwa [Int.cast_natCast] at hint
  unfold Around
  rw [hcast]
  by_cases hwhole : ⌊u⌋ = ⌈u⌉
  · have hge : u ≤ (⌊u⌋ : K) := by
      rw [hwhole]
      exact Int.le_ceil u
    exact Or.inl ⟨by omega, by omega, le_antisymm hge (Int.floor_le u)⟩
  · exact Or.inr ⟨by omega, by omega, Int.floor_le u, (Int.lt_floor_add_one u).le⟩

/-- **Rounding down and up and clamping gives the indices around the clamped place**, and
where they differ the place needed no clamping. -/
theorem around_clamp (hn : 1 ≤ n) (u : K) :
    Around n (clampPlace n u) (clampIndex n ⌊u⌋).toNat (clampIndex n ⌈u⌉).toNat ∧
      (clampIndex n ⌊u⌋ ≠ clampIndex n ⌈u⌉ → clampPlace n u = u) := by
  have hn' : (1 : K) ≤ n := by exact_mod_cast hn
  have hstep := Int.ceil_le_floor_add_one u
  unfold clampPlace clampIndex
  by_cases hneg : u < 0
  · -- before the first value
    have hf : ⌊u⌋ < 0 := Int.floor_lt.mpr (by push_cast; exact hneg)
    have hplace : max 0 (min u ((n : K) - 1)) = 0 :=
      max_eq_left ((min_le_left _ _).trans hneg.le)
    have hi : max 0 (min ⌊u⌋ ((n : ℤ) - 1)) = 0 := by omega
    have hj : max 0 (min ⌈u⌉ ((n : ℤ) - 1)) = 0 := by omega
    rw [hplace, hi, hj]
    exact ⟨Or.inl ⟨rfl, by omega, by simp⟩, fun hne => absurd rfl hne⟩
  · by_cases hfar : (n : K) - 1 < u
    · -- behind the last value
      have hc : (n : ℤ) - 1 < ⌈u⌉ := Int.lt_ceil.mpr (by push_cast; exact hfar)
      have hplace : max 0 (min u ((n : K) - 1)) = n - 1 := by
        rw [min_eq_right hfar.le, max_eq_right (by linarith)]
      have hi : max 0 (min ⌊u⌋ ((n : ℤ) - 1)) = n - 1 := by omega
      have hj : max 0 (min ⌈u⌉ ((n : ℤ) - 1)) = n - 1 := by omega
      have hlast : ((n : ℤ) - 1).toNat = n - 1 := by omega
      rw [hplace, hi, hj, hlast]
      exact ⟨Or.inl ⟨rfl, by omega, by push_cast [hn]; rfl⟩, fun hne => absurd rfl hne⟩
    · -- among the values
      have hlow : 0 ≤ u := not_lt.mp hneg
      have hhigh : u ≤ n - 1 := not_lt.mp hfar
      have hf0 : 0 ≤ ⌊u⌋ := Int.floor_nonneg.mpr hlow
      have hcn : ⌈u⌉ ≤ (n : ℤ) - 1 := Int.ceil_le.mpr (by push_cast; exact hhigh)
      have hfc : ⌊u⌋ ≤ ⌈u⌉ := Int.floor_le_ceil u
      have hplace : max 0 (min u ((n : K) - 1)) = u := by
        rw [min_eq_left hhigh, max_eq_right hlow]
      have hi : max 0 (min ⌊u⌋ ((n : ℤ) - 1)) = ⌊u⌋ := by omega
      have hj : max 0 (min ⌈u⌉ ((n : ℤ) - 1)) = ⌈u⌉ := by omega
      rw [hplace, hi, hj]
      exact ⟨around_floor hlow hhigh, fun _ => rfl⟩

/-- The line between the clamped indices, at the place as it was, is the interpolant at the
clamped place. -/
theorem line_clamp (hn : 1 ≤ n) (f : ℕ → K) (u : K) :
    line (clampIndex n ⌊u⌋).toNat (clampIndex n ⌈u⌉).toNat f u
      = interpolant n f (clampPlace n u) := by
  obtain ⟨haround, hsame⟩ := around_clamp hn u
  rw [← haround.line_eq f]
  by_cases heq : clampIndex n ⌊u⌋ = clampIndex n ⌈u⌉
  · unfold line
    rw [if_pos (by rw [heq]), if_pos (by rw [heq])]
  · rw [hsame heq]

end Floor

end Interpolation
