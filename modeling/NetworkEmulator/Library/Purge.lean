/-
Throwing old entries out of two queues by their heads.

`popOlder` takes the older of two heads, the first queue's when both are equally old,
and `purge` goes on doing so for as long as what it takes is older than a bound.  It
sees no entry behind a head that is not old, so what it leaves is each queue without
its old front; and nothing old is left exactly when the old entries of each queue come
first in it.  New entries that are no older than the rest change nothing in that.
-/
import Mathlib

namespace Purge

variable {α τ : Type} [LinearOrder τ] (ts : α → τ) (bound : τ)

/-- The older of the two heads, and the queues without it. -/
def popOlder : List α × List α → Option (α × List α × List α)
  | ([], []) => none
  | (x :: l, []) => some (x, l, [])
  | ([], y :: c) => some (y, [], c)
  | (x :: l, y :: c) => if ts x ≤ ts y then some (x, l, y :: c) else some (y, x :: l, c)

/-- At most `n` times, the older head goes if it is older than the bound. -/
def purge : ℕ → List α × List α → List α × List α
  | 0, q => q
  | n + 1, q =>
    match popOlder ts q with
    | none => q
    | some (x, rest) => if ts x < bound then purge n rest else q

/-- A queue without its old front. -/
abbrev fresh (l : List α) : List α := l.dropWhile fun x => ts x < bound

variable {ts bound}

theorem fresh_cons_old {x : α} {l : List α} (h : ts x < bound) :
    fresh ts bound (x :: l) = fresh ts bound l := List.dropWhile_cons_of_pos (by simpa using h)

theorem fresh_cons_young {x : α} {l : List α} (h : bound ≤ ts x) :
    fresh ts bound (x :: l) = x :: l := List.dropWhile_cons_of_neg (by simpa using h)

/-- **Purging leaves each queue without its old front.** -/
theorem purge_eq (n : ℕ) : ∀ l c : List α, l.length + c.length ≤ n →
    purge ts bound n (l, c) = (fresh ts bound l, fresh ts bound c) := by
  induction n with
  | zero =>
      intro l c hlen
      obtain rfl := List.length_eq_zero_iff.mp (by omega : l.length = 0)
      obtain rfl := List.length_eq_zero_iff.mp (by omega : c.length = 0)
      rfl
  | succ n ih =>
      intro l c hlen
      rw [purge]
      rcases l with _ | ⟨x, l⟩ <;> rcases c with _ | ⟨y, c⟩
      · rfl
      · show (if ts y < bound then purge ts bound n ([], c) else ([], y :: c)) = _
        by_cases hy : ts y < bound
        · rw [if_pos hy, ih [] c (by simpa using hlen), fresh_cons_old hy]
        · rw [if_neg hy, fresh_cons_young (not_lt.mp hy)]
          rfl
      · show (if ts x < bound then purge ts bound n (l, []) else (x :: l, [])) = _
        by_cases hx : ts x < bound
        · rw [if_pos hx, ih l [] (by simpa using hlen), fresh_cons_old hx]
        · rw [if_neg hx, fresh_cons_young (not_lt.mp hx)]
          rfl
      · simp only [List.length_cons] at hlen
        by_cases hle : ts x ≤ ts y
        · have hpop : popOlder ts (x :: l, y :: c) = some (x, l, y :: c) := if_pos hle
          simp only [hpop]
          by_cases hx : ts x < bound
          · rw [if_pos hx, ih l (y :: c) (by rw [List.length_cons]; omega), fresh_cons_old hx]
          · rw [if_neg hx, fresh_cons_young (not_lt.mp hx),
              fresh_cons_young ((not_lt.mp hx).trans hle)]
        · have hpop : popOlder ts (x :: l, y :: c) = some (y, x :: l, c) := if_neg hle
          simp only [hpop]
          by_cases hy : ts y < bound
          · rw [if_pos hy, ih (x :: l) c (by rw [List.length_cons]; omega), fresh_cons_old hy]
          · rw [if_neg hy, fresh_cons_young (not_lt.mp hy),
              fresh_cons_young ((not_lt.mp hy).trans (not_le.mp hle).le)]

variable (ts bound) in
/-- Whatever is old stands in front of all that is not. -/
def OldFirst (l : List α) : Prop := l.Pairwise fun x y => ts y < bound → ts x < bound

/-- Nothing old is left exactly when the old entries came first. -/
theorem fresh_iff (l : List α) :
    (∀ x ∈ fresh ts bound l, bound ≤ ts x) ↔ OldFirst ts bound l := by
  induction l with
  | nil => exact iff_of_true (fun x hx => absurd hx List.not_mem_nil) List.Pairwise.nil
  | cons x l ih =>
      rw [OldFirst, List.pairwise_cons]
      by_cases hx : ts x < bound
      · rw [fresh_cons_old hx, ih, OldFirst]
        exact ⟨fun h => ⟨fun _ _ _ => hx, h⟩, fun h => h.2⟩
      · rw [fresh_cons_young (not_lt.mp hx)]
        constructor
        · intro h
          refine ⟨fun y hy hold => ?_, ?_⟩
          · exact absurd hold (not_lt.mpr (h y (List.mem_cons_of_mem _ hy)))
          · rw [List.pairwise_iff_forall_sublist]
            intro a b hab hold
            have hb : b ∈ l := hab.subset (by simp)
            exact absurd hold (not_lt.mpr (h b (List.mem_cons_of_mem _ hb)))
        · intro h y hy
          rcases List.mem_cons.mp hy with rfl | hy
          · exact not_lt.mp hx
          · exact not_lt.mp fun hold => hx (h.1 y hy hold)

/-- In a queue that is sorted by age the old entries come first. -/
theorem OldFirst.of_sorted {l : List α} (h : (l.map ts).Pairwise (· ≤ ·)) :
    OldFirst ts bound l := by
  rw [List.pairwise_map] at h
  exact h.imp fun hxy hold => lt_of_le_of_lt hxy hold

/-- New entries, sorted and no older than those there, change nothing. -/
theorem oldFirst_append_iff {l m : List α} (hm : (m.map ts).Pairwise (· ≤ ·))
    (hlm : ∀ x ∈ l, ∀ y ∈ m, ts x ≤ ts y) :
    OldFirst ts bound (l ++ m) ↔ OldFirst ts bound l := by
  rw [OldFirst, List.pairwise_append]
  refine ⟨fun h => h.1, fun h => ⟨h, OldFirst.of_sorted hm, fun x hx y hy hold => ?_⟩⟩
  exact lt_of_le_of_lt (hlm x hx y hy) hold

end Purge
