/-
Reading a frame over and over.

`first frame n` are the first `n` symbols of the endless repetition of `frame`.  A reader
that keeps an index into the frame, and goes back to the start when the index has run
over the end, reads just these symbols: `first_succ` is its step.
-/
import Mathlib

namespace Cycles

variable {α : Type} {frame : List α}

/-- The first `n` symbols of the endless repetition: `n` copies have that many. -/
def first (frame : List α) (n : ℕ) : List α := (List.replicate n frame).flatten.take n

@[simp] theorem first_zero : first frame 0 = [] := rfl

/-- Of the copies of a frame, the symbol at a place is the one at its remainder. -/
theorem getElem?_copies {m : ℕ} :
    ∀ {i : ℕ}, i < m * frame.length →
      (List.replicate m frame).flatten[i]? = frame[i % frame.length]? := by
  induction m with
  | zero => intro i hi; omega
  | succ m ih =>
      intro i hi
      rw [List.replicate_succ, List.flatten_cons]
      by_cases hlt : i < frame.length
      · rw [List.getElem?_append_left hlt, Nat.mod_eq_of_lt hlt]
      · have hle : frame.length ≤ i := Nat.le_of_not_lt hlt
        have hrest : i - frame.length < m * frame.length := by
          rw [Nat.succ_mul] at hi
          omega
        rw [List.getElem?_append_right hle, ih hrest, ← Nat.mod_eq_sub_mod hle]

/-- Within the frame, the repetition is the frame. -/
theorem first_of_le {n : ℕ} (hle : n ≤ frame.length) : first frame n = frame.take n := by
  cases n with
  | zero => rfl
  | succ n =>
      rw [first, List.replicate_succ, List.flatten_cons, List.take_append_of_le_length hle]

/-- The symbol after the first `n`. -/
theorem first_succ {n : ℕ} (hmod : n % frame.length < frame.length) :
    first frame (n + 1) = first frame n ++ [frame[n % frame.length]] := by
  have hpos : 0 < frame.length := Nat.zero_lt_of_lt hmod
  have hlt : n < (n + 1) * frame.length := by nlinarith
  have hcopies : (List.replicate (n + 1) frame).flatten
      = (List.replicate n frame).flatten ++ frame := by
    rw [List.replicate_succ', List.flatten_append, List.flatten_singleton]
  have hget := getElem?_copies hlt
  rw [List.getElem?_eq_getElem hmod] at hget
  have hlen : n ≤ (List.replicate n frame).flatten.length := by
    rw [List.length_flatten, List.map_replicate, List.sum_replicate, smul_eq_mul]
    nlinarith
  rw [first, List.take_add_one, hget, hcopies, List.take_append_of_le_length hlen]
  rfl

end Cycles
