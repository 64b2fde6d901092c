/-
Ones' complement sums.

Words are below a base `b`, and a sum that reaches the base puts its carry back in at the
low end.  Both ways of doing that, with each addition (`sum`) and after a plain sum
(`fold`), lead to a word that stands for the plain sum (`Represents`): it has the residue of
the sum modulo `b - 1`, and is zero only for a zero sum.  So whatever a sum is, there is a
word that completes it to the greatest word (`Represents.complement`).
-/
import Mathlib

namespace OnesComplement

variable {b n r w : ℕ}

/-- Addition with the carry put back in. -/
def add (b x y : ℕ) : ℕ := if x + y < b then x + y else x + y - (b - 1)

/-- The sum of words. -/
def sum (b : ℕ) (ws : List ℕ) : ℕ := ws.foldl (add b) 0

/-- Putting back all carries of a plain sum at once. -/
def carry (b n : ℕ) : ℕ := n % b + n / b

/-- Putting the carries back until there are none, some number of times at most. -/
def fold (b : ℕ) : ℕ → ℕ → ℕ
  | 0, n => n
  | k + 1, n => if n < b then n else fold b k (carry b n)

/-- The word `r` stands for the plain sum `n`. -/
structure Represents (b n r : ℕ) : Prop where
  lt : r < b
  mod : r ≡ n [MOD b - 1]
  zero : r = 0 ↔ n = 0

/-! ### Adding word by word -/

theorem Represents.nil (hb : 2 ≤ b) : Represents b 0 0 := ⟨by omega, rfl, Iff.rfl⟩

theorem Represents.add (hb : 2 ≤ b) (h : Represents b n r) (hw : w < b) :
    Represents b (n + w) (add b r w) := by
  have hmod : r + w ≡ n + w [MOD b - 1] := h.mod.add_right w
  have hlt := h.lt
  have hzero := h.zero
  unfold OnesComplement.add
  by_cases hfits : r + w < b
  · rw [if_pos hfits]
    exact ⟨hfits, hmod, by omega⟩
  · rw [if_neg hfits]
    have hsub : r + w - (b - 1) + (b - 1) = r + w := by omega
    have hcycle : r + w - (b - 1) ≡ r + w - (b - 1) + (b - 1) [MOD b - 1] :=
      (Nat.add_mod_right ..).symm
    rw [hsub] at hcycle
    exact ⟨by omega, hcycle.trans hmod, by omega⟩

private theorem represents_foldl (hb : 2 ≤ b) (ws : List ℕ) :
    ∀ {n r : ℕ}, Represents b n r → (∀ w ∈ ws, w < b) →
      Represents b (n + ws.sum) (ws.foldl (OnesComplement.add b) r) := by
  induction ws with
  | nil => intro n r h _; exact h
  | cons w ws ih =>
      intro n r h hws
      have hw : w < b := hws w (List.mem_cons_self ..)
      rw [List.sum_cons, ← Nat.add_assoc]
      exact ih (h.add hb hw) fun x hx => hws x (List.mem_cons_of_mem _ hx)

/-- **The sum of words stands for their plain sum.** -/
theorem sum_represents (hb : 2 ≤ b) {ws : List ℕ} (hws : ∀ w ∈ ws, w < b) :
    Represents b ws.sum (sum b ws) := by
  have h := represents_foldl hb ws (Represents.nil hb) hws
  rwa [Nat.zero_add] at h

/-! ### Carrying at the end -/

theorem carry_mod (hb : 2 ≤ b) : carry b n ≡ n [MOD b - 1] := by
  have hdiv : n = n % b + n / b + (b - 1) * (n / b) := by
    have h := Nat.mod_add_div n b
    have hone : (b - 1) * (n / b) + n / b = b * (n / b) := by
      rw [← Nat.succ_mul, Nat.succ_eq_add_one, Nat.sub_add_cancel (by omega)]
    omega
  have hcycle : carry b n + (b - 1) * (n / b) ≡ carry b n [MOD b - 1] :=
    Nat.add_mul_mod_self_left ..
  rw [carry, ← hdiv] at hcycle
  exact hcycle.symm

theorem carry_eq_zero : carry b n = 0 ↔ n = 0 := by
  have h := Nat.mod_add_div n b
  unfold carry
  constructor
  · intro h0
    obtain ⟨hmod, hdiv⟩ := Nat.add_eq_zero_iff.mp h0
    rw [hmod, hdiv] at h
    exact h.symm
  · rintro rfl
    simp

theorem fold_mod (hb : 2 ≤ b) (k : ℕ) : ∀ {n : ℕ}, fold b k n ≡ n [MOD b - 1] := by
  induction k with
  | zero => intro n; rfl
  | succ k ih =>
      intro n
      unfold fold
      split
      · rfl
      · exact ih.trans (carry_mod hb)

theorem fold_eq_zero (k : ℕ) : ∀ {n : ℕ}, fold b k n = 0 ↔ n = 0 := by
  induction k with
  | zero => intro n; rfl
  | succ k ih =>
      intro n
      unfold fold
      split
      · rfl
      · exact ih.trans carry_eq_zero

/-- A sum below the square of the base is a word after two rounds. -/
theorem fold_lt (hb : 2 ≤ b) {k : ℕ} (hn : n < b * b) : fold b (k + 2) n < b := by
  have hfirst : n / b < b := Nat.div_lt_of_lt_mul hn
  have hrest : n % b < b := Nat.mod_lt n (by omega)
  rw [fold]
  split
  · assumption
  · have hcarry : carry b n ≤ 2 * b - 2 := by
      unfold carry
      omega
    rw [fold]
    split
    · assumption
    · rename_i hge
      have hdiv : carry b n / b = 1 := Nat.div_eq_of_lt_le (by omega) (by omega)
      have hword : carry b (carry b n) < b := by
        have h := Nat.mod_add_div (carry b n) b
        rw [hdiv, Nat.mul_one] at h
        rw [carry, hdiv]
        omega
      cases k with
      | zero => exact hword
      | succ k => rwa [fold, if_pos hword]

/-- **The folded sum stands for the plain sum.** -/
theorem fold_represents (hb : 2 ≤ b) {k : ℕ} (hn : n < b * b) :
    Represents b n (fold b (k + 2) n) :=
  ⟨fold_lt hb hn, fold_mod hb _, fold_eq_zero _⟩

/-! ### Completing a sum -/

/-- A sum that is a multiple of `b - 1`, and not zero, is the greatest word. -/
theorem Represents.eq_top (h : Represents b n r) (hn : n ≡ 0 [MOD b - 1]) (hpos : 0 < n) :
    r = b - 1 := by
  have hlt := h.lt
  have hzero := h.zero
  have hdvd : b - 1 ∣ r := (Nat.modEq_zero_iff_dvd).mp (h.mod.trans hn)
  have hle : b - 1 ≤ r := Nat.le_of_dvd (by omega) hdvd
  omega

/-- **The complement of a sum completes it.** -/
theorem Represents.complement (hb : 2 ≤ b) (h : Represents b n r) {r' : ℕ}
    (h' : Represents b (n + (b - 1 - r)) r') : r' = b - 1 := by
  have hlt := h.lt
  have hzero := h.zero
  refine h'.eq_top ?_ (by omega)
  have hsum : n + (b - 1 - r) ≡ r + (b - 1 - r) [MOD b - 1] := h.mod.symm.add_right _
  rw [show r + (b - 1 - r) = b - 1 by omega] at hsum
  exact hsum.trans (Nat.modEq_zero_iff_dvd.mpr dvd_rfl)

end OnesComplement
