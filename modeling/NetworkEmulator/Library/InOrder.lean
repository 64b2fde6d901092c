/-
Logs that keep an order.

`pos` says where an entry belongs, and `acc` which entries count.  A log grows by
entries that either belong right behind the last one, or behind all that count so far.
Then the entries that count stand in their order, whatever the others do in between.
-/
import Mathlib

variable {α : Type}

/-- The entries that count stand in their order, the last entry behind all of them. -/
structure InOrder (pos : α → ℕ) (acc : α → Prop) (l : List α) : Prop where
  pairwise : l.Pairwise fun v w => acc v → acc w → pos v < pos w
  last : ∀ x, l.getLast? = some x → ∀ v ∈ l, acc v → pos v ≤ pos x

namespace InOrder

variable {pos : α → ℕ} {acc : α → Prop} {l : List α} {x : α}

theorem nil : InOrder pos acc [] := ⟨List.Pairwise.nil, by simp⟩

/-- An entry behind all that count keeps the order. -/
theorem jump (h : InOrder pos acc l) (hx : ∀ v ∈ l, acc v → pos v < pos x) :
    InOrder pos acc (l ++ [x]) := by
  refine ⟨?_, ?_⟩
  · rw [List.pairwise_append]
    refine ⟨h.pairwise, List.pairwise_singleton _ _, ?_⟩
    intro v hv w hw hacc _
    obtain rfl := List.mem_singleton.mp hw
    exact hx v hv hacc
  · intro y hy v hv hacc
    rw [List.getLast?_concat] at hy
    obtain rfl := Option.some.inj hy
    rcases List.mem_append.mp hv with hv | hv
    · exact (hx v hv hacc).le
    · rw [List.mem_singleton.mp hv]

/-- So does an entry right behind the last one. -/
theorem follow (h : InOrder pos acc l) {y : α} (hy : l.getLast? = some y)
    (hx : pos x = pos y + 1) : InOrder pos acc (l ++ [x]) := by
  refine h.jump fun v hv hacc => ?_
  have hle := h.last y hy v hv hacc
  omega

/-- The order only depends on the positions of the entries there are. -/
theorem congr {pos' : α → ℕ} (h : InOrder pos acc l) (hpos : ∀ v ∈ l, pos' v = pos v) :
    InOrder pos' acc l := by
  refine ⟨?_, ?_⟩
  · refine h.pairwise.imp_of_mem ?_
    intro v w hv hw hvw hv' hw'
    rw [hpos v hv, hpos w hw]
    exact hvw hv' hw'
  · intro y hy v hv hacc
    rw [hpos v hv, hpos y (List.mem_of_getLast? hy)]
    exact h.last y hy v hv hacc

end InOrder
