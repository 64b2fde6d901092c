/-
Rounding a rational number to a binary floating-point format.

A format is the precision of its numbers, in bits, the exponent of the last place of its
smallest ones, and the exponent from which on they are infinite.

`Format.round` takes the nearest number and, halfway between two, the one with the even
significand; it knows no largest exponent.  Everything a program can rely on without knowing
the numbers follows from three facts: what is rounded is a number of the format
(`represents_round`), a number of the format stays as it is (`Represents.round_eq`), and
rounding keeps the order (`round_mono`).

`Format.store` is rounding with overflow.  An infinity stands as a rational beyond all formats
that is a number of none of them, which is enough as long as no two infinities are added.

A sum is rounded at every addition, so it can depend on the order of its terms.  It does not
where nothing is rounded, as for whole numbers that are small together (`Format.sum_eq`).
-/
import Mathlib.Algebra.Order.Floor.Ring
import Mathlib.Data.Int.Log
import Mathlib.Data.Rat.Floor
import Mathlib.Tactic.FieldSimp
import Mathlib.Tactic.Linarith
import Mathlib.Tactic.Positivity

namespace Rounding

/-! ### To a whole number -/

/-- The nearest integer, halves to even. -/
def roundHalfEven (x : ℚ) : ℤ :=
  if x - ⌊x⌋ < 1 / 2 then ⌊x⌋
  else if 1 / 2 < x - ⌊x⌋ then ⌊x⌋ + 1
  else if ⌊x⌋ % 2 = 0 then ⌊x⌋ else ⌊x⌋ + 1

theorem roundHalfEven_near (x : ℚ) : |roundHalfEven x - x| ≤ 1 / 2 := by
  have hlow : (⌊x⌋ : ℚ) ≤ x := Int.floor_le x
  have hhigh : x < ⌊x⌋ + 1 := Int.lt_floor_add_one x
  unfold roundHalfEven
  rw [abs_le]
  by_cases hless : x - ⌊x⌋ < 1 / 2
  · rw [if_pos hless]
    constructor <;> linarith
  · rw [if_neg hless]
    by_cases hmore : 1 / 2 < x - ⌊x⌋
    · rw [if_pos hmore]
      push_cast
      constructor <;> linarith
    · rw [if_neg hmore]
      by_cases heven : ⌊x⌋ % 2 = 0
      · rw [if_pos heven]
        constructor <;> linarith
      · rw [if_neg heven]
        push_cast
        constructor <;> linarith

/-- Numbers of either sign are rounded alike. -/
theorem roundHalfEven_neg (x : ℚ) : roundHalfEven (-x) = -roundHalfEven x := by
  have hlow : (⌊x⌋ : ℚ) ≤ x := Int.floor_le x
  have hhigh : x < ⌊x⌋ + 1 := Int.lt_floor_add_one x
  by_cases hint : x = ⌊x⌋
  · have hneg : ⌊-x⌋ = -⌊x⌋ := by
      rw [hint, ← Int.cast_neg, Int.floor_intCast, Int.floor_intCast]
    have hzero : x - ⌊x⌋ < 1 / 2 := by linarith
    have hzero' : -x - ⌊-x⌋ < 1 / 2 := by
      rw [hneg]
      push_cast
      linarith
    rw [roundHalfEven, roundHalfEven, if_pos hzero, if_pos hzero', hneg]
  · have hlt : (⌊x⌋ : ℚ) < x := lt_of_le_of_ne hlow fun heq => hint heq.symm
    have hneg : ⌊-x⌋ = -⌊x⌋ - 1 := by
      rw [Int.floor_eq_iff]
      push_cast
      constructor <;> linarith
    have hfract : -x - (⌊-x⌋ : ℚ) = 1 - (x - ⌊x⌋) := by
      rw [hneg]
      push_cast
      ring
    rw [roundHalfEven, roundHalfEven, hfract, hneg]
    by_cases hless : x - ⌊x⌋ < 1 / 2
    · rw [if_pos hless, if_neg (by linarith), if_pos (by linarith)]
      ring
    · rw [if_neg hless]
      by_cases hmore : 1 / 2 < x - ⌊x⌋
      · rw [if_pos hmore, if_pos (by linarith)]
        ring
      · -- Halfway between two integers, the even one is taken.
        rw [if_neg hmore, if_neg (by linarith), if_neg (by linarith)]
        by_cases heven : ⌊x⌋ % 2 = 0
        · rw [if_pos heven, if_neg (by omega)]
          ring
        · rw [if_neg heven, if_pos (by omega)]
          ring

@[simp] theorem roundHalfEven_intCast (n : ℤ) : roundHalfEven n = n := by
  rw [roundHalfEven, Int.floor_intCast, sub_self, if_pos (by norm_num)]

private theorem roundHalfEven_between (x : ℚ) :
    ⌊x⌋ ≤ roundHalfEven x ∧ roundHalfEven x ≤ ⌊x⌋ + 1 := by
  unfold roundHalfEven
  constructor <;> (repeat' split) <;> omega

theorem roundHalfEven_mono {x y : ℚ} (hle : x ≤ y) : roundHalfEven x ≤ roundHalfEven y := by
  rcases (Int.floor_mono hle).lt_or_eq with hlt | heq
  · have hx := (roundHalfEven_between x).2
    have hy := (roundHalfEven_between y).1
    omega
  · -- Between the same two integers only the fractions differ.
    have hfract : x - (⌊x⌋ : ℚ) ≤ y - (⌊y⌋ : ℚ) := by
      rw [heq]
      linarith
    unfold roundHalfEven
    rw [heq] at hfract ⊢
    by_cases hx : x - (⌊y⌋ : ℚ) < 1 / 2
    · rw [if_pos hx]
      exact (roundHalfEven_between y).1
    · have hy : ¬ y - (⌊y⌋ : ℚ) < 1 / 2 := by linarith
      rw [if_neg hx, if_neg hy]
      by_cases hx' : 1 / 2 < x - (⌊y⌋ : ℚ)
      · rw [if_pos hx', if_pos (by linarith)]
      · rw [if_neg hx']
        split <;> split <;> omega

theorem roundHalfEven_le {x : ℚ} {n : ℤ} (h : x ≤ n) : roundHalfEven x ≤ n :=
  (roundHalfEven_mono h).trans_eq (roundHalfEven_intCast n)

theorem le_roundHalfEven {x : ℚ} {n : ℤ} (h : (n : ℚ) ≤ x) : n ≤ roundHalfEven x :=
  (roundHalfEven_intCast n).symm.trans_le (roundHalfEven_mono h)

/-! ### To a format -/

/-- A binary format. -/
structure Format where
  precision : ℕ
  minExponent : ℤ
  maxExponent : ℕ
  precision_pos : 0 < precision := by decide
  precision_lt : precision < maxExponent := by decide
  minExponent_neg : minExponent < 0 := by decide
  maxExponent_le : maxExponent ≤ 1024 := by decide

/-- The format of `float`. -/
def binary32 : Format := { precision := 24, minExponent := -149, maxExponent := 128 }

/-- The format of `double`. -/
def binary64 : Format := { precision := 53, minExponent := -1074, maxExponent := 1024 }

/-- What stands for an infinity. -/
def infinity : ℚ := 2 ^ 1025 + 1

namespace Format

variable (f : Format)

/-- The exponent of the last place of the numbers around `x`. -/
def lastExponent (x : ℚ) : ℤ := max (Int.log 2 |x| + 1 - f.precision) f.minExponent

/-- The distance between the numbers around `x`. -/
def ulp (x : ℚ) : ℚ := 2 ^ f.lastExponent x

/-- The nearest number of the format, halves to even, as if none were too large. -/
def round (x : ℚ) : ℚ := roundHalfEven (x / f.ulp x) * f.ulp x

/-- What a variable of the format holds when it is given `x`. -/
def store (x : ℚ) : ℚ :=
  if |f.round x| < 2 ^ f.maxExponent then f.round x else if x < 0 then -infinity else infinity

/-- What a variable of the format holds when it is given a quotient.  An infinity stays one. -/
def quotient (x y : ℚ) : ℚ := if |x| < 2 ^ f.maxExponent then f.store (x / y) else x

/-- What a variable of the format holds when numbers are added to it one after another. -/
def sum (l : List ℚ) : ℚ := l.foldl (fun total x => f.store (total + x)) 0

/-- The largest number of the format. -/
def largest : ℚ := 2 ^ f.maxExponent - 2 ^ (f.maxExponent - f.precision)

/-- `v` is a number of the format, if it is not too large. -/
def Represents (v : ℚ) : Prop :=
  ∃ n e : ℤ, |n| ≤ 2 ^ f.precision ∧ f.minExponent ≤ e ∧ v = n * 2 ^ e

/-- `v` is a number of the format. -/
def Holds (v : ℚ) : Prop := f.round v = v ∧ |v| < 2 ^ f.maxExponent

instance (v : ℚ) : Decidable (f.Holds v) := inferInstanceAs (Decidable (_ ∧ _))

variable {f}

private theorem ulp_pos (x : ℚ) : 0 < f.ulp x := zpow_pos two_pos _

private theorem ulp_neg (x : ℚ) : f.ulp (-x) = f.ulp x := by
  rw [ulp, lastExponent, abs_neg]
  rfl

theorem round_neg (x : ℚ) : f.round (-x) = -f.round x := by
  rw [round, ulp_neg, neg_div, roundHalfEven_neg, Int.cast_neg, neg_mul]
  rfl

@[simp] theorem round_zero : f.round 0 = 0 := by
  have hzero : roundHalfEven 0 = 0 := by exact_mod_cast roundHalfEven_intCast 0
  rw [round, zero_div, hzero, Int.cast_zero, zero_mul]

/-- A number has at most as many places as the precision. -/
private theorem abs_le_ulp (x : ℚ) : |x| ≤ 2 ^ f.precision * f.ulp x := by
  have hlt : |x| < 2 ^ (Int.log 2 |x| + 1) := Int.lt_zpow_succ_log_self one_lt_two _
  have hle : Int.log 2 |x| + 1 ≤ f.precision + f.lastExponent x := by
    have := le_max_left (Int.log 2 |x| + 1 - f.precision) f.minExponent
    rw [lastExponent]
    omega
  calc |x| ≤ 2 ^ (Int.log 2 |x| + 1) := hlt.le
    _ ≤ 2 ^ ((f.precision : ℤ) + f.lastExponent x) := zpow_le_zpow_right₀ one_le_two hle
    _ = 2 ^ f.precision * f.ulp x := by rw [zpow_add₀ two_ne_zero, zpow_natCast, ulp]

/-- **What is rounded is a number of the format.** -/
theorem represents_round (x : ℚ) : f.Represents (f.round x) := by
  refine ⟨roundHalfEven (x / f.ulp x), f.lastExponent x, ?_, le_max_right _ _, rfl⟩
  have hulp := ulp_pos (f := f) x
  obtain ⟨hlow, hhigh⟩ := abs_le.mp (abs_le_ulp (f := f) x)
  rw [abs_le]
  constructor
  · refine le_roundHalfEven ((le_div_iff₀ hulp).mpr ?_)
    push_cast
    linarith
  · refine roundHalfEven_le ((div_le_iff₀ hulp).mpr ?_)
    push_cast
    exact hhigh

/-- The significand can be taken below the next power of two. -/
private theorem Represents.exists_lt {v : ℚ} (h : f.Represents v) :
    ∃ n e : ℤ, |n| < 2 ^ f.precision ∧ f.minExponent ≤ e ∧ v = n * 2 ^ e := by
  obtain ⟨n, e, hn, he, rfl⟩ := h
  rcases hn.lt_or_eq with hlt | heq
  · exact ⟨n, e, hlt, he, rfl⟩
  · -- The power of two itself has a place less.
    obtain ⟨p, hp⟩ := Nat.exists_eq_succ_of_ne_zero f.precision_pos.ne'
    rw [hp, pow_succ] at heq
    have hpos : (0 : ℤ) < 2 ^ p := by positivity
    obtain ⟨m, rfl⟩ : ∃ m, n = m * 2 := by
      rcases abs_choice n with h | h
      · exact ⟨2 ^ p, by rw [← h, heq]⟩
      · exact ⟨-2 ^ p, by linarith⟩
    refine ⟨m, e + 1, ?_, by omega, ?_⟩
    · rw [abs_mul, abs_two] at heq
      rw [hp, pow_succ]
      omega
    · rw [zpow_add₀ two_ne_zero, zpow_one]
      push_cast
      ring

/-- **A number of the format stays as it is.** -/
theorem Represents.round_eq {v : ℚ} (h : f.Represents v) : f.round v = v := by
  obtain ⟨n, e, hn, he, rfl⟩ := h.exists_lt
  rcases eq_or_ne n 0 with rfl | hne
  · rw [Int.cast_zero, zero_mul, round_zero]
  have hpow : (0 : ℚ) < 2 ^ e := zpow_pos two_pos e
  have habs : (0 : ℚ) < |(n : ℚ) * 2 ^ e| := by
    rw [abs_pos]
    exact mul_ne_zero (by exact_mod_cast hne) hpow.ne'
  -- The last place of the number is not below that of its size.
  have hle : f.lastExponent (n * 2 ^ e) ≤ e := by
    have hlt : |(n : ℚ) * 2 ^ e| < 2 ^ ((f.precision : ℤ) + e) := by
      rw [abs_mul, abs_of_pos hpow, zpow_add₀ two_ne_zero, zpow_natCast]
      exact mul_lt_mul_of_pos_right (by exact_mod_cast hn) hpow
    have hlog := (Int.lt_zpow_iff_log_lt one_lt_two habs).mp hlt
    rw [lastExponent, max_le_iff]
    omega
  obtain ⟨k, hk⟩ := Int.le.dest hle
  have hscale : (n : ℚ) * 2 ^ e / f.ulp (n * 2 ^ e) = (n * 2 ^ k : ℤ) := by
    rw [div_eq_iff (ulp_pos _).ne', ulp]
    nth_rewrite 1 [← hk]
    rw [zpow_add₀ two_ne_zero, zpow_natCast]
    push_cast
    ring
  rw [round, hscale, roundHalfEven_intCast, ← hscale, div_mul_cancel₀ _ (ulp_pos _).ne']

theorem represents_iff {v : ℚ} : f.Represents v ↔ f.round v = v :=
  ⟨Represents.round_eq, fun h => h ▸ represents_round v⟩

/-- The exponent grows with the size. -/
private theorem lastExponent_mono {x y : ℚ} (hx : 0 < x) (hle : x ≤ y) :
    f.lastExponent x ≤ f.lastExponent y := by
  have hlog := Int.log_mono_right (b := 2) hx hle
  rw [lastExponent, lastExponent, abs_of_pos hx, abs_of_pos (hx.trans_le hle)]
  omega

/-- Rounding to one number of places keeps the order. -/
private theorem round_le_of_lastExponent {x y : ℚ} (hexp : f.lastExponent x = f.lastExponent y)
    (hle : x ≤ y) : f.round x ≤ f.round y := by
  have hulp : f.ulp x = f.ulp y := by rw [ulp, hexp, ← ulp]
  have hpos := ulp_pos (f := f) y
  rw [round, round, hulp]
  refine mul_le_mul_of_nonneg_right ?_ hpos.le
  exact_mod_cast roundHalfEven_mono (div_le_div_of_nonneg_right hle hpos.le)

private theorem round_nonneg' {x : ℚ} (h : 0 ≤ x) : 0 ≤ f.round x := by
  have hpos := ulp_pos (f := f) x
  refine mul_nonneg ?_ hpos.le
  have hzero : (0 : ℤ) ≤ roundHalfEven (x / f.ulp x) :=
    le_roundHalfEven (by exact_mod_cast div_nonneg h hpos.le)
  exact_mod_cast hzero

/-- Between numbers of different sizes there is a power of two, which is on both grids. -/
private theorem round_le_of_pos {x y : ℚ} (hx : 0 < x) (hle : x ≤ y) :
    f.round x ≤ f.round y := by
  rcases (lastExponent_mono (f := f) hx hle).eq_or_lt with hexp | hlt
  · exact round_le_of_lastExponent hexp hle
  have hy : 0 < y := hx.trans_le hle
  set k := Int.log 2 y with hk
  have hexp : f.lastExponent y = k + 1 - f.precision := by
    have hmin : f.minExponent ≤ f.lastExponent x := le_max_right _ _
    have hy' : f.lastExponent y = max (Int.log 2 y + 1 - f.precision) f.minExponent := by
      rw [lastExponent, abs_of_pos hy]
    omega
  have hxk : x ≤ 2 ^ k := by
    refine ((Int.lt_zpow_iff_log_lt one_lt_two hx).mpr ?_).le
    have hx' : Int.log 2 x + 1 - f.precision ≤ f.lastExponent x := by
      rw [lastExponent, abs_of_pos hx]
      exact le_max_left _ _
    omega
  have hyk : (2 : ℚ) ^ k ≤ y := Int.zpow_log_le_self one_lt_two hy
  have hgrid : ∀ e : ℤ, e ≤ k → ∃ n : ℤ, (2 : ℚ) ^ k = n * 2 ^ e := by
    intro e he
    obtain ⟨d, hd⟩ := Int.le.dest he
    refine ⟨2 ^ d, ?_⟩
    rw [← hd, zpow_add₀ two_ne_zero, zpow_natCast]
    push_cast
    ring
  have hp := f.precision_pos
  obtain ⟨n, hn⟩ := hgrid (f.lastExponent x) (by omega)
  obtain ⟨m, hm⟩ := hgrid (f.lastExponent y) (by omega)
  calc f.round x ≤ n * f.ulp x := by
        refine mul_le_mul_of_nonneg_right ?_ (ulp_pos x).le
        refine Int.cast_le.mpr (roundHalfEven_le ((div_le_iff₀ (ulp_pos x)).mpr ?_))
        exact hxk.trans_eq hn
    _ = m * f.ulp y := hn.symm.trans hm
    _ ≤ f.round y := by
        refine mul_le_mul_of_nonneg_right ?_ (ulp_pos y).le
        refine Int.cast_le.mpr (le_roundHalfEven ((le_div_iff₀ (ulp_pos y)).mpr ?_))
        exact hm.symm.trans_le hyk

/-- **Rounding keeps the order.** -/
theorem round_mono : Monotone f.round := by
  intro x y hle
  rcases lt_or_ge 0 x with hx | hx
  · exact round_le_of_pos hx hle
  · rcases lt_or_ge y 0 with hy | hy
    · have h := round_le_of_pos (f := f) (neg_pos.mpr hy) (neg_le_neg hle)
      rw [round_neg, round_neg] at h
      exact neg_le_neg_iff.mp h
    · have h := round_nonneg' (f := f) (neg_nonneg.mpr hx)
      rw [round_neg] at h
      exact (neg_nonneg.mp h).trans (round_nonneg' hy)

theorem round_nonneg {x : ℚ} (h : 0 ≤ x) : 0 ≤ f.round x :=
  round_zero.symm.trans_le (round_mono h)

/-- Nothing is rounded past a number of the format. -/
theorem round_le {x v : ℚ} (hv : f.Represents v) (h : x ≤ v) : f.round x ≤ v :=
  (round_mono h).trans_eq hv.round_eq

theorem le_round {x v : ℚ} (hv : f.Represents v) (h : v ≤ x) : v ≤ f.round x :=
  hv.round_eq.symm.trans_le (round_mono h)

/-- Small whole numbers are numbers of the format. -/
theorem represents_intCast {n : ℤ} (h : |n| ≤ 2 ^ f.precision) : f.Represents n :=
  ⟨n, 0, h, f.minExponent_neg.le, by rw [zpow_zero, mul_one]⟩

/-- Finer formats have the numbers of coarser ones. -/
theorem Represents.mono {g : Format} {v : ℚ} (h : f.Represents v)
    (hprecision : f.precision ≤ g.precision) (hmin : g.minExponent ≤ f.minExponent) :
    g.Represents v := by
  obtain ⟨n, e, hn, he, rfl⟩ := h
  exact ⟨n, e, hn.trans (pow_le_pow_right₀ one_le_two hprecision), hmin.trans he, rfl⟩

theorem Represents.neg {v : ℚ} (h : f.Represents v) : f.Represents (-v) := by
  obtain ⟨n, e, hn, he, rfl⟩ := h
  exact ⟨-n, e, by rwa [abs_neg], he, by rw [Int.cast_neg, neg_mul]⟩

private theorem abs_le_of_nonpos {n e : ℤ} (hn : |n| ≤ 2 ^ f.precision) (he : e ≤ 0) :
    |(n : ℚ) * 2 ^ e| ≤ 2 ^ f.precision := by
  have hpow : (2 : ℚ) ^ e ≤ 1 := zpow_le_one_of_nonpos₀ one_le_two he
  have hpos : (0 : ℚ) < 2 ^ e := zpow_pos two_pos e
  have hcast : |(n : ℚ)| ≤ 2 ^ f.precision := by exact_mod_cast hn
  rw [abs_mul, abs_of_pos hpos]
  exact (mul_le_of_le_one_right (abs_nonneg _) hpow).trans hcast

/-- A number is whole, or so small that all whole numbers of its size are numbers of the
format. -/
private theorem Represents.whole_or_small {v : ℚ} (h : f.Represents v) :
    (∃ n : ℤ, v = n) ∨ |v| ≤ 2 ^ f.precision := by
  obtain ⟨n, e, hn, -, rfl⟩ := h
  rcases le_total 0 e with he | he
  · obtain ⟨k, rfl⟩ := Int.eq_ofNat_of_zero_le he
    exact Or.inl ⟨n * 2 ^ k, by push_cast; rfl⟩
  · exact Or.inr (abs_le_of_nonpos hn he)

/-- Cutting off the places behind the point leaves a number of the format. -/
theorem Represents.floor {v : ℚ} (h : f.Represents v) : f.Represents ⌊v⌋ := by
  rcases h.whole_or_small with ⟨n, rfl⟩ | hsmall
  · rwa [Int.floor_intCast]
  · obtain ⟨hlow, hhigh⟩ := abs_le.mp hsmall
    refine represents_intCast (abs_le.mpr ⟨Int.le_floor.mpr ?_, ?_⟩)
    · exact_mod_cast hlow
    · exact_mod_cast (Int.floor_le v).trans hhigh

/-- Whole numbers are halved without rounding. -/
theorem Represents.half {n : ℤ} (h : f.Represents n) : f.Represents (n * (1 / 2)) := by
  have hmin := f.minExponent_neg
  have hhalf : (1 / 2 : ℚ) = 2 ^ (-1 : ℤ) := by norm_num
  obtain ⟨m, e, hm, he, hn⟩ := h
  rcases le_total 0 e with hpos | hneg
  · refine ⟨m, e - 1, hm, by omega, ?_⟩
    rw [hn, hhalf, mul_assoc, ← zpow_add₀ two_ne_zero]
    rfl
  · refine ⟨n, -1, ?_, by omega, by rw [hhalf]⟩
    have hle : |(n : ℚ)| ≤ 2 ^ f.precision := hn ▸ abs_le_of_nonpos hm hneg
    exact_mod_cast hle

/-! ### With overflow -/

private theorem lt_infinity : (2 : ℚ) ^ f.maxExponent < infinity :=
  (pow_lt_pow_right₀ one_lt_two (Nat.lt_succ_of_le f.maxExponent_le)).trans (lt_add_one _)

theorem Holds.store_eq {v : ℚ} (h : f.Holds v) : f.store v = v := by
  rw [store, h.1, if_pos h.2]

theorem holds_intCast {n : ℤ} (h : |n| ≤ 2 ^ f.precision) : f.Holds n := by
  refine ⟨(represents_intCast h).round_eq, ?_⟩
  calc |(n : ℚ)| ≤ 2 ^ f.precision := by exact_mod_cast h
    _ < 2 ^ f.maxExponent := pow_lt_pow_right₀ one_lt_two f.precision_lt

@[simp] theorem store_zero : f.store 0 = 0 :=
  Holds.store_eq ⟨round_zero, by rw [abs_zero]; positivity⟩

/-- **Overflow keeps the order.** -/
theorem store_mono : Monotone f.store := by
  intro x y hle
  have hround := round_mono (f := f) hle
  have hinf := lt_infinity (f := f)
  have hpos : (0 : ℚ) < 2 ^ f.maxExponent := by positivity
  unfold store
  by_cases hx : |f.round x| < 2 ^ f.maxExponent
  · by_cases hy : |f.round y| < 2 ^ f.maxExponent
    · rwa [if_pos hx, if_pos hy]
    · have hx' := abs_lt.mp hx
      have hy' : ¬ y < 0 := fun hneg => by
        have hneg' : f.round y ≤ 0 := (round_mono hneg.le).trans_eq round_zero
        rw [abs_of_nonpos hneg'] at hy
        linarith
      rw [if_pos hx, if_neg hy, if_neg hy']
      linarith
  · by_cases hy : |f.round y| < 2 ^ f.maxExponent
    · have hy' := abs_lt.mp hy
      have hx' : x < 0 := by
        by_contra hpos'
        rw [abs_of_nonneg (round_nonneg (not_lt.mp hpos'))] at hx
        linarith
      rw [if_neg hx, if_pos hy, if_pos hx']
      linarith
    · rw [if_neg hx, if_neg hy]
      split
      · split <;> linarith
      · rename_i hx'
        rw [if_neg fun hy' => hx' (hle.trans_lt hy')]

/-- What is rounded is stored, as long as it is not too large. -/
theorem holds_round {x : ℚ} (h : |f.round x| < 2 ^ f.maxExponent) : f.Holds (f.round x) :=
  ⟨(represents_round x).round_eq, h⟩

/-! ### Sums -/

/-- Nothing is rounded past a small whole number. -/
theorem abs_round_le {x : ℚ} (h : |x| ≤ 2 ^ f.precision) : |f.round x| ≤ 2 ^ f.precision := by
  have hpow : f.Represents (2 ^ f.precision) := by
    have hint := represents_intCast (f := f) (n := 2 ^ f.precision) (abs_of_pos (by positivity)).le
    rwa [Int.cast_pow, Int.cast_ofNat] at hint
  obtain ⟨hlow, hhigh⟩ := abs_le.mp h
  exact abs_le.mpr ⟨le_round hpow.neg hlow, round_le hpow hhigh⟩

/-- What is small is stored without overflow. -/
theorem store_eq_round {x : ℚ} (h : |x| ≤ 2 ^ f.precision) : f.store x = f.round x := by
  have hlt : (2 : ℚ) ^ f.precision < 2 ^ f.maxExponent :=
    pow_lt_pow_right₀ one_lt_two f.precision_lt
  rw [store, if_pos ((abs_round_le h).trans_lt hlt)]

theorem sum_concat (l : List ℚ) (x : ℚ) : f.sum (l ++ [x]) = f.store (f.sum l + x) := by
  rw [sum, List.foldl_append]
  rfl

/-- The sum of whole numbers is a whole number, and no larger than they are together. -/
private theorem exists_sum_eq {l : List ℚ} (hwhole : ∀ x ∈ l, ∃ n : ℤ, (n : ℚ) = x)
    (h : (l.map abs).sum ≤ 2 ^ f.precision) : ∃ n : ℤ, n = l.sum ∧ |n| ≤ 2 ^ f.precision := by
  obtain ⟨n, hn⟩ : ∃ n : ℤ, (n : ℚ) = l.sum := by
    refine List.sum_induction _ ?_ ⟨0, Int.cast_zero⟩ hwhole
    rintro a b ⟨n, rfl⟩ ⟨m, rfl⟩
    exact ⟨n + m, Int.cast_add n m⟩
  have habs : |(n : ℚ)| ≤ 2 ^ f.precision := by
    rw [hn]
    exact (List.le_sum_of_subadditive abs abs_zero.le abs_add_le l).trans h
  exact ⟨n, hn, by exact_mod_cast habs⟩

theorem holds_sum {l : List ℚ} (hwhole : ∀ x ∈ l, ∃ n : ℤ, (n : ℚ) = x)
    (h : (l.map abs).sum ≤ 2 ^ f.precision) : f.Holds l.sum := by
  obtain ⟨n, hn, habs⟩ := exists_sum_eq hwhole h
  exact hn ▸ holds_intCast habs

/-- **Whole numbers that are small together are added without rounding.** -/
theorem sum_eq {l : List ℚ} (hwhole : ∀ x ∈ l, ∃ n : ℤ, (n : ℚ) = x)
    (h : (l.map abs).sum ≤ 2 ^ f.precision) : f.sum l = l.sum := by
  induction l using List.reverseRecOn with
  | nil => rfl
  | append_singleton l x ih =>
      have hle : (l.map abs).sum ≤ 2 ^ f.precision := by
        rw [List.map_append, List.sum_append, List.map_singleton, List.sum_singleton] at h
        exact (le_add_of_nonneg_right (abs_nonneg x)).trans h
      rw [sum_concat, ih (fun y hy => hwhole y (List.mem_append_left _ hy)) hle,
        ← List.sum_concat, List.concat_eq_append]
      exact (holds_sum hwhole h).store_eq

/-- The quotient of a small number and a whole one is rounded once. -/
theorem quotient_eq_round {x : ℚ} (h : |x| ≤ 2 ^ f.precision) (n : ℕ) :
    f.quotient x n = f.round (x / n) := by
  have hlt : |x| < 2 ^ f.maxExponent :=
    h.trans_lt (pow_lt_pow_right₀ one_lt_two f.precision_lt)
  have hle : |x / n| ≤ |x| := by
    rw [abs_div, Nat.abs_cast]
    rcases n.eq_zero_or_pos with rfl | hpos
    · rw [Nat.cast_zero, div_zero]
      exact abs_nonneg x
    · exact div_le_self (abs_nonneg x) (by exact_mod_cast hpos)
  rw [quotient, if_pos hlt, store_eq_round (hle.trans h)]

end Format

end Rounding
