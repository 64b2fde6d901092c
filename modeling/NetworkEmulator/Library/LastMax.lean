/-
The last of the greatest elements of a list, found by one scan.

The scan keeps the best element so far and takes every element that is at least as good, so
of several greatest ones it ends with the last.  It starts from a bound instead of an element:
an element below the bound is never taken.
-/
import Mathlib

namespace LastMax

variable {α K : Type} [LinearOrder K] {key : α → K} {start : K} {xs : List α} {x : α}

/-- One step of the scan. -/
def keep (key : α → K) (start : K) (best : Option α) (x : α) : Option α :=
  if best.elim start key ≤ key x then some x else best

/-- The scan. -/
def scan (key : α → K) (start : K) (xs : List α) : Option α := xs.foldl (keep key start) none

@[simp] theorem scan_nil : scan key start [] = none := rfl

theorem scan_concat : scan key start (xs ++ [x]) =
    if (scan key start xs).elim start key ≤ key x then some x else scan key start xs :=
  List.foldl_concat ..

/-- The best so far is one of the list. -/
theorem scan_mem : ∀ {x}, scan key start xs = some x → x ∈ xs := by
  induction xs using List.reverseRecOn with
  | nil => intro x h; cases h
  | append_singleton xs y ih =>
      intro x h
      rw [scan_concat] at h
      by_cases hle : (scan key start xs).elim start key ≤ key y
      · rw [if_pos hle] at h
        simp [Option.some.inj h]
      · rw [if_neg hle] at h
        exact List.mem_append_left _ (ih h)

/-- **The scan has found a greatest element, or all are below the bound.** -/
theorem scan_spec (key : α → K) (start : K) (xs : List α) :
    (∀ y ∈ xs, key y ≤ (scan key start xs).elim start key) ∧
    start ≤ (scan key start xs).elim start key ∧
    (scan key start xs = none → ∀ y ∈ xs, key y < start) := by
  induction xs using List.reverseRecOn with
  | nil => simp
  | append_singleton xs x ih =>
      obtain ⟨hbest, hstart, hnone⟩ := ih
      rw [scan_concat]
      by_cases hle : (scan key start xs).elim start key ≤ key x
      · rw [if_pos hle]
        refine ⟨fun y hy => ?_, hstart.trans hle, fun h => by cases h⟩
        rcases List.mem_append.mp hy with hy | hy
        · exact (hbest y hy).trans hle
        · rw [List.mem_singleton.mp hy]
          exact le_rfl
      · rw [if_neg hle]
        refine ⟨fun y hy => ?_, hstart, fun h y hy => ?_⟩
        · rcases List.mem_append.mp hy with hy | hy
          · exact hbest y hy
          · rw [List.mem_singleton.mp hy]
            exact le_of_not_ge hle
        · rcases List.mem_append.mp hy with hy | hy
          · exact hnone h y hy
          · rw [List.mem_singleton.mp hy]
            rw [h] at hle
            exact not_le.mp hle

theorem le_of_scan (h : scan key start xs = some x) {y : α} (hy : y ∈ xs) : key y ≤ key x := by
  have hle := (scan_spec key start xs).1 y hy
  rwa [h] at hle

theorem start_le_of_scan (h : scan key start xs = some x) : start ≤ key x := by
  have hle := (scan_spec key start xs).2.1
  rwa [h] at hle

/-- **An element is found exactly when one reaches the bound.** -/
theorem exists_scan_iff : (∃ x, scan key start xs = some x) ↔ ∃ y ∈ xs, start ≤ key y := by
  constructor
  · rintro ⟨x, hx⟩
    exact ⟨x, scan_mem hx, start_le_of_scan hx⟩
  · rintro ⟨y, hy, hle⟩
    cases hscan : scan key start xs with
    | none => exact absurd hle (not_le.mpr ((scan_spec key start xs).2.2 hscan y hy))
    | some x => exact ⟨x, rfl⟩

/-- An element above all others is found. -/
theorem scan_of_top (hx : x ∈ xs) (hstart : start ≤ key x)
    (htop : ∀ y ∈ xs, y ≠ x → key y < key x) : scan key start xs = some x := by
  obtain ⟨y, hy⟩ := exists_scan_iff.mpr ⟨x, hx, hstart⟩
  by_contra hne
  have hyx : y ≠ x := fun heq => hne (heq ▸ hy)
  exact absurd (le_of_scan hy hx) (not_le.mpr (htop y (scan_mem hy) hyx))

/-- Of elements that are all alike the last is found. -/
theorem scan_of_const {k : K} (hstart : start ≤ k) (hconst : ∀ y ∈ xs, key y = k) :
    scan key start xs = xs.getLast? := by
  induction xs using List.reverseRecOn with
  | nil => rfl
  | append_singleton xs x ih =>
      have hbest : (scan key start xs).elim start key ≤ key x := by
        rw [hconst x (by simp)]
        cases hscan : scan key start xs with
        | none => exact hstart
        | some y => exact (hconst y (List.mem_append_left _ (scan_mem hscan))).le
      rw [scan_concat, if_pos hbest, List.getLast?_concat]

end LastMax
