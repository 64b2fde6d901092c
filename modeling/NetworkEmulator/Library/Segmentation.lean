/-
Cutting items off the front of a queue, seen as a stream of units.

An item stands for `size` units that all bear its `label`, and a queue of items for the
units of its items one after another.  Sending `k` units sends whole items while they
fit and cuts the one that does not; `Segment k queue sent left` is that procedure, and
says of the items themselves what was done to each.  Seen as streams it is nothing but
`take` and `drop`.

`Fifo` is the queue of units on its own, so that an implementation that sends `Segment`s
can be compared with it.
-/
import NetworkEmulator.Library.Recut

namespace Segmentation

/-- Items of some size, and how they are sent: whole, or in pieces. -/
structure Cutter (α β : Type) where
  size : α → ℕ
  label : α → β
  whole : α → α
  piece : α → ℕ → α
  size_whole : ∀ a, size (whole a) = size a
  label_whole : ∀ a, label (whole a) = label a
  size_piece : ∀ a k, size (piece a k) = k
  label_piece : ∀ a k, label (piece a k) = label a

namespace Cutter

variable {α β : Type} (c : Cutter α β)

/-! ### The stream of a queue -/

/-- The units of an item. -/
def units (a : α) : List β := List.replicate (c.size a) (c.label a)

/-- The units of a queue. -/
def stream (l : List α) : List β := l.flatMap c.units

@[simp] theorem length_units (a : α) : (c.units a).length = c.size a := List.length_replicate

@[simp] theorem units_whole (a : α) : c.units (c.whole a) = c.units a := by
  rw [units, units, c.size_whole, c.label_whole]

theorem units_piece (a : α) (k : ℕ) : c.units (c.piece a k) = List.replicate k (c.label a) := by
  rw [units, c.size_piece, c.label_piece]

/-- The two pieces of an item are its first units and the rest. -/
theorem take_units {a : α} {k : ℕ} (h : k ≤ c.size a) :
    (c.units a).take k = c.units (c.piece a k) := by
  rw [units, List.take_replicate, Nat.min_eq_left h, units_piece]

theorem drop_units (a : α) (k : ℕ) :
    (c.units a).drop k = c.units (c.piece a (c.size a - k)) := by
  rw [units, List.drop_replicate, units_piece]

@[simp] theorem stream_nil : c.stream [] = [] := rfl

@[simp] theorem stream_cons (a : α) (l : List α) :
    c.stream (a :: l) = c.units a ++ c.stream l := List.flatMap_cons

@[simp] theorem stream_append (l l' : List α) :
    c.stream (l ++ l') = c.stream l ++ c.stream l' := List.flatMap_append

theorem length_stream (l : List α) : (c.stream l).length = weight c.size l := by
  induction l with
  | nil => rfl
  | cons a l ih => rw [stream_cons, List.length_append, length_units, weight_cons, ih]

/-! ### Sending from a queue -/

/-- `k` units are sent off the front of a queue. -/
inductive Segment : ℕ → List α → List α → List α → Prop
  | stop {k : ℕ} {l : List α} (h : k = 0 ∨ l = []) : Segment k l [] l
  | whole {k : ℕ} {a : α} {l sent left : List α} (h : c.size a ≤ k)
      (rest : Segment (k - c.size a) l sent left) : Segment k (a :: l) (c.whole a :: sent) left
  | cut {k : ℕ} {a : α} (l : List α) (hpos : 0 < k) (hlt : k < c.size a) :
      Segment k (a :: l) [c.piece a k] (c.piece a (c.size a - k) :: l)

namespace Segment

variable {c} {k : ℕ} {l sent left : List α}

/-- What is sent are the first `k` units. -/
theorem stream_sent (h : c.Segment k l sent left) : c.stream sent = (c.stream l).take k := by
  induction h with
  | stop h =>
      rcases h with rfl | rfl
      · rw [List.take_zero, stream_nil]
      · rw [stream_nil, List.take_nil]
  | @whole k a l sent left h rest ih =>
      have hall : (c.units a).take k = c.units a :=
        List.take_of_length_le (by rw [length_units]; exact h)
      rw [stream_cons, stream_cons, units_whole, ih, List.take_append, length_units, hall]
  | @cut k a l hpos hlt =>
      rw [stream_cons, stream_cons, stream_nil, List.append_nil, List.take_append, length_units,
        Nat.sub_eq_zero_of_le hlt.le, List.take_zero, List.append_nil, c.take_units hlt.le]

/-- What is left are the units after them. -/
theorem stream_left (h : c.Segment k l sent left) : c.stream left = (c.stream l).drop k := by
  induction h with
  | stop h =>
      rcases h with rfl | rfl
      · rw [List.drop_zero]
      · rw [stream_nil, List.drop_nil]
  | @whole k a l sent left h rest ih =>
      have hnone : (c.units a).drop k = [] :=
        List.drop_of_length_le (by rw [length_units]; exact h)
      rw [stream_cons, ih, List.drop_append, length_units, hnone, List.nil_append]
  | @cut k a l hpos hlt =>
      rw [stream_cons, stream_cons, List.drop_append, length_units,
        Nat.sub_eq_zero_of_le hlt.le, List.drop_zero, c.drop_units]

/-- **Every item is sent whole, except possibly the last one, and then its rest is at the
head of what is left.** -/
theorem shape (h : c.Segment k l sent left) :
    (∃ front, l = front ++ left ∧ sent = front.map c.whole) ∨
      ∃ front a rest j, l = front ++ a :: rest ∧ 0 < j ∧ j < c.size a ∧
        sent = front.map c.whole ++ [c.piece a j] ∧
        left = c.piece a (c.size a - j) :: rest := by
  induction h with
  | stop h => exact Or.inl ⟨[], rfl, rfl⟩
  | @whole k a l sent left h rest ih =>
      rcases ih with ⟨front, rfl, rfl⟩ | ⟨front, x, rest', j, rfl, hpos, hlt, rfl, rfl⟩
      · exact Or.inl ⟨a :: front, rfl, rfl⟩
      · exact Or.inr ⟨a :: front, x, rest', j, rfl, hpos, hlt, rfl, rfl⟩
  | @cut k a l hpos hlt => exact Or.inr ⟨[], a, l, k, rfl, hpos, hlt, rfl, rfl⟩

/-- What is left keeps a property of the queue that rests of items inherit. -/
theorem forall_left {P : α → Prop} (h : c.Segment k l sent left) (hl : ∀ a ∈ l, P a)
    (hrest : ∀ a j, P a → 0 < j → j < c.size a → P (c.piece a (c.size a - j))) :
    ∀ a ∈ left, P a := by
  rcases h.shape with ⟨front, rfl, -⟩ | ⟨front, x, rest, j, rfl, hpos, hlt, -, rfl⟩
  · intro a ha
    exact hl a (List.mem_append_right _ ha)
  · intro a ha
    rcases List.mem_cons.mp ha with rfl | ha
    · exact hrest x j (hl x (by simp)) hpos hlt
    · exact hl a (List.mem_append_right _ (List.mem_cons_of_mem _ ha))

end Segment

end Cutter

/-! ### A queue of units -/

/-- A queue of units, with what was put in and what was taken out. -/
structure Fifo (β : Type) where
  queue : List β
  added : List β := []
  sent : List β := []

/-- A use of the queue. -/
inductive Use (β : Type)
  | put (new : List β)
  | take (n : ℕ)

namespace Fifo

variable {β : Type}

/-- One use: units go in at the back and out at the front. -/
def use (q : Fifo β) : Use β → Fifo β
  | .put new => { q with queue := q.queue ++ new, added := q.added ++ new }
  | .take n => { q with queue := q.queue.drop n, sent := q.sent ++ q.queue.take n }

/-- What came out and what is still queued is what was there and what came in. -/
def Kept (start : List β) (q : Fifo β) : Prop := q.sent ++ q.queue = start ++ q.added

theorem Kept.use {start : List β} {q : Fifo β} (h : q.Kept start) (u : Use β) :
    (q.use u).Kept start := by
  cases u with
  | put new =>
      show q.sent ++ (q.queue ++ new) = start ++ (q.added ++ new)
      rw [← List.append_assoc, h, List.append_assoc]
  | take n =>
      show q.sent ++ q.queue.take n ++ q.queue.drop n = start ++ q.added
      rw [List.append_assoc, List.take_append_drop]
      exact h

end Fifo

end Segmentation
