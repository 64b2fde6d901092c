/-
What a statistics keeper answers.

The keeper has four sums and two counters, and answers from them.  What it should answer is
said here of the calls before: a `get` the mean, over the steps, of what was added since the
`get` before it, and a `get_total` the mean of all that was added up to the last step.
`Tells` ties the sums and counters to these calls, and every call keeps it.
-/
import NetworkEmulator.Library.Lockstep
import NetworkEmulator.Model.MeanHandler

namespace NetworkEmulator

namespace MeanCall

/-! ### What the calls so far come to -/

/-- The sum of the values added. -/
def added : List MeanCall → ℚ
  | [] => 0
  | .add v :: rest => v + added rest
  | _ :: rest => added rest

/-- The number of steps. -/
def steps (past : List MeanCall) : ℕ := past.count .step

/-- The calls after the last `c`, which are all when there is none. -/
def since (c : MeanCall) (past : List MeanCall) : List MeanCall := past.rtakeWhile (· ≠ c)

/-- The calls up to the last `c`. -/
def upTo (c : MeanCall) (past : List MeanCall) : List MeanCall := past.rdropWhile (· ≠ c)

/-- What a call has to return after these: a mean of what was added, over the steps. -/
def due (past : List MeanCall) : MeanCall → Option ℚ
  | .get =>
    some (added (since .get past) /
      if steps (since .get past) = 0 then 1 else steps (since .get past))
  | .getTotal => some (if steps past = 0 then 0 else added (upTo .step past) / steps past)
  | _ => none

section Past

variable {c d : MeanCall} {past past' : List MeanCall}

theorem added_append : added (past ++ past') = added past + added past' := by
  induction past with
  | nil => exact (zero_add _).symm
  | cons c past ih =>
      cases c with
      | add v => rw [List.cons_append, added, added, ih, add_assoc]
      | step => exact ih
      | get => exact ih
      | getTotal => exact ih

theorem steps_append : steps (past ++ past') = steps past + steps past' := List.count_append

@[simp] theorem since_self : since c (past ++ [c]) = [] :=
  List.rtakeWhile_concat_neg _ _ c (by simp)

@[simp] theorem upTo_self : upTo c (past ++ [c]) = past ++ [c] :=
  List.rdropWhile_concat_neg _ _ c (by simp)

theorem since_of_ne (h : d ≠ c) : since c (past ++ [d]) = since c past ++ [d] :=
  List.rtakeWhile_concat_pos _ _ d (by simpa using h)

theorem upTo_of_ne (h : d ≠ c) : upTo c (past ++ [d]) = upTo c past :=
  List.rdropWhile_concat_pos _ _ d (by simpa using h)

/-- What was added up to the last `c`, and what was added since. -/
theorem added_split (c : MeanCall) (past : List MeanCall) :
    added (upTo c past) + added (since c past) = added past := by
  rw [← added_append]
  exact congrArg added List.rdropWhile_append_rtakeWhile

/-- What was added up to the last step does not depend on the gets. -/
theorem added_upTo_filter (past : List MeanCall) :
    added (upTo .step (past.filter (· ≠ .get))) = added (upTo .step past) := by
  have hadded (l : List MeanCall) : added (l.filter (· ≠ .get)) = added l := by
    induction l with
    | nil => rfl
    | cons d l ih =>
        by_cases hget : d = .get
        · rw [hget, List.filter_cons_of_neg (by simp)]
          exact ih
        · rw [List.filter_cons_of_pos (by simpa using hget), ← List.singleton_append, added_append,
            ih, ← added_append, List.singleton_append]
  induction past using List.reverseRecOn with
  | nil => rfl
  | append_singleton past d ih =>
      by_cases hget : d = .get
      · rw [hget, List.filter_append, upTo_of_ne (by decide)]
        simpa using ih
      · have hkept : (past ++ [d]).filter (· ≠ .get) = past.filter (· ≠ .get) ++ [d] := by
          simp [List.filter_append, hget]
        rw [hkept]
        by_cases hstep : d = .step
        · rw [hstep, upTo_self, upTo_self, added_append, added_append, hadded]
        · rw [upTo_of_ne hstep, upTo_of_ne hstep, ih]

end Past

end MeanCall

namespace MeanHandler

open MeanCall

/-! ### What the keeper remembers of them -/

/-- The keeper holds what these calls come to. -/
structure Tells (past : List MeanCall) (m : MeanHandler) : Prop where
  value : m.value = added (since .get past)
  counter : m.counter = steps (since .get past)
  tValue : m.tValue = added (since .step past)
  totalValue : m.totalValue * steps past = added (upTo .step past)
  unstepped : steps past = 0 → m.totalValue = 0
  totalCounter : m.totalCounter = steps past + 1

namespace Tells

variable {past : List MeanCall} {m : MeanHandler}

theorem init : Tells [] {} where
  value := rfl
  counter := rfl
  tValue := rfl
  totalValue := zero_mul _
  unstepped _ := rfl
  totalCounter := rfl

theorem add (h : Tells past m) (v : ℚ) : Tells (past ++ [.add v]) (m.add v) := by
  have hsteps : steps (past ++ [.add v]) = steps past := by rw [steps_append]; rfl
  have hone : added [.add v] = v := add_zero v
  refine ⟨?_, ?_, ?_, ?_, ?_, ?_⟩
  · rw [since_of_ne (by simp), added_append, hone, ← h.value]
    rfl
  · rw [since_of_ne (by simp), steps_append, ← h.counter]
    rfl
  · rw [since_of_ne (by simp), added_append, hone, ← h.tValue]
    rfl
  · rw [upTo_of_ne (by simp), hsteps]
    exact h.totalValue
  · rw [hsteps]
    exact h.unstepped
  · rw [hsteps]
    exact h.totalCounter

/-- A step makes the mean of all that was added: the counter is one ahead of the steps. -/
theorem step (h : Tells past m) : Tells (past ++ [.step]) m.step := by
  have hsteps : steps (past ++ [.step]) = steps past + 1 := by rw [steps_append]; rfl
  have hnothing : added [.step] = 0 := rfl
  have hcounter : (m.totalCounter : ℚ) = steps past + 1 := by
    rw [h.totalCounter]
    push_cast
    rfl
  have hpos : (steps past + 1 : ℚ) ≠ 0 := by positivity
  have hmean : m.step.totalValue * (steps past + 1) = added past := by
    calc m.step.totalValue * (steps past + 1)
        = m.totalValue * (m.totalCounter - 1) + m.tValue := by
          rw [← hcounter]
          exact div_mul_cancel₀ _ (hcounter ▸ hpos)
      _ = added (upTo .step past) + added (since .step past) := by
          rw [hcounter, add_sub_cancel_right, h.totalValue, h.tValue]
      _ = added past := added_split .step past
  refine ⟨?_, ?_, ?_, ?_, ?_, ?_⟩
  · rw [since_of_ne (by decide), added_append, hnothing, add_zero]
    exact h.value
  · rw [since_of_ne (by decide), steps_append, ← h.counter]
    rfl
  · rw [since_self]
    rfl
  · rw [hsteps, upTo_self, added_append, hnothing, add_zero, Nat.cast_add, Nat.cast_one]
    exact hmean
  · intro hzero
    rw [hsteps] at hzero
    omega
  · rw [hsteps, ← h.totalCounter]
    rfl

/-- A `get` starts the sum it answers from anew, and leaves the other alone. -/
theorem get (h : Tells past m) : Tells (past ++ [.get]) m.get.2 := by
  have hsteps : steps (past ++ [.get]) = steps past := by rw [steps_append]; rfl
  refine ⟨?_, ?_, ?_, ?_, ?_, ?_⟩
  · rw [since_self]
    rfl
  · rw [since_self]
    rfl
  · rw [since_of_ne (by decide), added_append, ← h.tValue]
    exact (add_zero _).symm
  · rw [upTo_of_ne (by decide), hsteps]
    exact h.totalValue
  · rw [hsteps]
    exact h.unstepped
  · rw [hsteps]
    exact h.totalCounter

theorem getTotal (h : Tells past m) : Tells (past ++ [.getTotal]) m := by
  have hsteps : steps (past ++ [.getTotal]) = steps past := by rw [steps_append]; rfl
  refine ⟨?_, ?_, ?_, ?_, ?_, ?_⟩
  · rw [since_of_ne (by decide), added_append, ← h.value]
    exact (add_zero _).symm
  · rw [since_of_ne (by decide), steps_append, ← h.counter]
    rfl
  · rw [since_of_ne (by decide), added_append, ← h.tValue]
    exact (add_zero _).symm
  · rw [upTo_of_ne (by decide), hsteps]
    exact h.totalValue
  · rw [hsteps]
    exact h.unstepped
  · rw [hsteps]
    exact h.totalCounter

/-- What `get` answers. -/
theorem get_due (h : Tells past m) : some m.get.1 = due past .get := by
  show some (m.value / ((if m.counter = 0 then 1 else m.counter : ℕ) : ℚ)) = _
  rw [h.value, h.counter, due, Nat.cast_ite, Nat.cast_one]

/-- What `get_total` answers. -/
theorem getTotal_due (h : Tells past m) : some m.getTotal = due past .getTotal := by
  show some m.totalValue = _
  rw [due]
  by_cases hzero : steps past = 0
  · rw [if_pos hzero, h.unstepped hzero]
  · have hne : (steps past : ℚ) ≠ 0 := Nat.cast_ne_zero.mpr hzero
    rw [if_neg hzero, ← h.totalValue, mul_div_cancel_right₀ _ hne]

/-- **A call answers what is due and keeps what the keeper tells.** -/
theorem call (h : Tells past m) (c : MeanCall) :
    (m.call c).1 = due past c ∧ Tells (past ++ [c]) (m.call c).2 := by
  cases c with
  | add v => exact ⟨rfl, h.add v⟩
  | step => exact ⟨rfl, h.step⟩
  | get => exact ⟨h.get_due, h.get⟩
  | getTotal => exact ⟨h.getTotal_due, h.getTotal⟩

end Tells

/-- **The keeper computes true means.**  In every sequence of calls each one returns what is
due after the calls before it, and what is due to a `get_total` does not depend on the gets. -/
theorem answers_are_means (calls : List MeanCall) :
    Lockstep.answers call {} calls = calls.mapIdx (fun i c => due (calls.take i) c) ∧
      ∀ past, due (past.filter (· ≠ .get)) .getTotal = due past .getTotal := by
  refine ⟨Lockstep.answers_eq_due Tells.init (fun _ _ c h => h.call c) calls, fun past => ?_⟩
  have hsteps : steps (past.filter (· ≠ .get)) = steps past := List.count_filter (by decide)
  rw [due, due, hsteps, added_upTo_filter]

example : Lockstep.answers call {} [.add 3, .add 1, .step, .get, .step, .getTotal, .get] =
    [none, none, none, some 4, none, some 2, some 0] := by decide +kernel

end MeanHandler

end NetworkEmulator
