/-
Texts put together from parts and taken apart again.

A separator that no part contains is found between the parts and nowhere else: a search
from the front stops behind the first part, one from the back before the last.  A number
printed with a fixed number of decimals has that many digits behind its point, and all of
its digits together spell the number.
-/
import Mathlib

namespace Delimited

/-! ### Separators -/

section Separators

variable {α : Type} [DecidableEq α] {sep : α}

/-- A search from the front finds the separator behind a part that does not contain it. -/
theorem findIdx?_append_cons {a : List α} (b : List α) (h : sep ∉ a) :
    (a ++ sep :: b).findIdx? (· = sep) = some a.length := by
  rw [List.findIdx?_eq_some_iff_getElem]
  refine ⟨by simp, by simp, fun j hj => ?_⟩
  rw [List.getElem_append_left hj]
  simp only [decide_eq_true_eq]
  exact fun heq => h (heq ▸ List.getElem_mem hj)

/-- A search from the back finds the one before a part that does not contain it. -/
theorem findIdx?_reverse_append_cons {b : List α} (a : List α) (h : sep ∉ b) :
    ((a ++ sep :: b).reverse.findIdx? (· = sep)).map ((a ++ sep :: b).length - 1 - ·) =
      some a.length := by
  have hrev : (a ++ sep :: b).reverse = b.reverse ++ sep :: a.reverse := by simp
  rw [hrev, findIdx?_append_cons _ (by simpa using h), Option.map_some]
  simp only [List.length_append, List.length_cons, List.length_reverse, Option.some.injEq]
  omega

theorem takeWhile_append_cons {a : List α} (b : List α) (h : sep ∉ a) :
    (a ++ sep :: b).takeWhile (· ≠ sep) = a := by
  have hall : ∀ x ∈ a, decide (x ≠ sep) = true := fun x hx =>
    decide_eq_true fun heq => h (heq ▸ hx)
  rw [List.takeWhile_append_of_pos hall, List.takeWhile_cons_of_neg (by simp), List.append_nil]

theorem dropWhile_append_cons {a : List α} (b : List α) (h : sep ∉ a) :
    (a ++ sep :: b).dropWhile (· ≠ sep) = sep :: b := by
  have hall : ∀ x ∈ a, decide (x ≠ sep) = true := fun x hx =>
    decide_eq_true fun heq => h (heq ▸ hx)
  rw [List.dropWhile_append_of_pos hall, List.dropWhile_cons_of_neg (by simp)]

omit [DecidableEq α] in
/-- Parts that are joined contain what they contain, and separators. -/
theorem mem_intercalate {parts : List (List α)} {x : α} (h : x ∈ [sep].intercalate parts) :
    x = sep ∨ ∃ part ∈ parts, x ∈ part := by
  induction parts with
  | nil => cases h
  | cons part rest ih =>
      by_cases hrest : rest = []
      · subst hrest
        rw [List.intercalate_singleton] at h
        exact Or.inr ⟨part, List.mem_cons_self .., h⟩
      · rw [List.intercalate_cons_of_ne_nil hrest, List.append_assoc] at h
        rcases List.mem_append.mp h with h | h
        · exact Or.inr ⟨part, List.mem_cons_self .., h⟩
        · rcases List.mem_cons.mp h with h | h
          · exact Or.inl h
          · rcases ih h with h | ⟨part', hpart', h⟩
            · exact Or.inl h
            · exact Or.inr ⟨part', List.mem_cons_of_mem _ hpart', h⟩

end Separators

/-! ### Decimals -/

section Decimals

/-- The digits before and behind the point of a number of units of the `k`-th decimal. -/
def fixedPoint (k n : ℕ) : List Char × List Char :=
  (Nat.toDigits 10 (n / 10 ^ k), (Nat.toDigits 10 (n % 10 ^ k)).leftpad k '0')

variable (k n : ℕ)

theorem isDigit_of_mem_toDigits {c : Char} (h : c ∈ Nat.toDigits 10 n) : c.isDigit = true :=
  Nat.isDigit_of_mem_toDigits (by decide) (by decide) h

theorem fixedPoint_isDigit {c : Char} (h : c ∈ (fixedPoint k n).1 ++ (fixedPoint k n).2) :
    c.isDigit = true := by
  rcases List.mem_append.mp h with h | h
  · exact isDigit_of_mem_toDigits _ h
  · rcases List.mem_append.mp h with h | h
    · rw [(List.mem_replicate.mp h).2]
      decide
    · exact isDigit_of_mem_toDigits _ h

/-- There is a digit before the point. -/
theorem fixedPoint_ne_nil : (fixedPoint k n).1 ≠ [] :=
  List.ne_nil_of_length_pos Nat.length_toDigits_pos

theorem fixedPoint_length (hk : 0 < k) : (fixedPoint k n).2.length = k := by
  have hlen : (Nat.toDigits 10 (n % 10 ^ k)).length ≤ k :=
    (Nat.length_toDigits_le_iff (by decide) hk).mpr (Nat.mod_lt _ (by positivity))
  show ((Nat.toDigits 10 (n % 10 ^ k)).leftpad k '0').length = k
  rw [List.length_leftpad]
  omega

/-- **The digits spell the number.** -/
theorem fixedPoint_value (hk : 0 < k) :
    Nat.ofDigitChars 10 ((fixedPoint k n).1 ++ (fixedPoint k n).2) 0 = n := by
  have hfraction : Nat.ofDigitChars 10 (fixedPoint k n).2 0 = n % 10 ^ k := by
    show Nat.ofDigitChars 10 (List.replicate _ '0' ++ Nat.toDigits 10 (n % 10 ^ k)) 0 = _
    rw [Nat.ofDigitChars_append, Nat.ofDigitChars_replicate_zero, Nat.mul_zero,
      Nat.ofDigitChars_ten_toDigits]
  rw [Nat.ofDigitChars_append, Nat.ofDigitChars_eq_ofDigitChars_zero, fixedPoint_length k n hk,
    hfraction]
  show 10 ^ k * Nat.ofDigitChars 10 (Nat.toDigits 10 (n / 10 ^ k)) 0 + n % 10 ^ k = n
  rw [Nat.ofDigitChars_ten_toDigits]
  exact Nat.div_add_mod n (10 ^ k)

end Decimals

end Delimited
